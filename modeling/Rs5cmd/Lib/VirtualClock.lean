import Mathlib.Algebra.Order.BigOperators.Group.List
import Mathlib.Algebra.Order.Ring.Nat

/-!
# Virtual scheduling

Reservations are made in turn, each at a reading of the clock and with a cost. One
starts when it is made, or when the one before it has been paid for. However they
are made, those that start in a window cost no more than it is long, less the last.
-/

namespace VirtualClock

/-- The starts of the reservations `(now, cost)`, from a cursor on. -/
def starts : Nat → List (Nat × Nat) → List Nat
  | _, [] => []
  | cursor, (now, cost) :: rest => max now cursor :: starts (max now cursor + cost) rest

variable {α : Type*} {cursor : Nat}

@[simp] theorem length_starts (cursor : Nat) (rs : List (Nat × Nat)) :
    (starts cursor rs).length = rs.length := by
  induction rs generalizing cursor with
  | nil => rfl
  | cons r rs ih => simp [starts, ih]

/-- Each reservation starts when it is made or when the one before it is paid for. -/
theorem getElem?_starts_succ {rs : List (Nat × Nat)} {i now cost now' cost' s : Nat}
    (hi : rs[i]? = some (now, cost)) (hi' : rs[i + 1]? = some (now', cost'))
    (hs : (starts cursor rs)[i]? = some s) :
    (starts cursor rs)[i + 1]? = some (max now' (s + cost)) := by
  induction rs generalizing cursor i with
  | nil => simp at hi
  | cons r rs ih =>
    cases i with
    | zero =>
      obtain rfl : r = (now, cost) := by simpa using hi
      obtain ⟨_, rs, rfl⟩ : ∃ r' rest, rs = r' :: rest := by
        cases rs with
        | nil => simp at hi'
        | cons r' rest => exact ⟨r', rest, rfl⟩
      obtain rfl := Option.some.inj (hi' : some _ = some _)
      obtain rfl := Option.some.inj (hs : some _ = some _)
      rfl
    | succ i => exact ih hi hi' hs

/-- Reservations that are made at once start one after the other. -/
theorem getElem?_starts_replicate {n cost i : Nat} (h : i < n) :
    (starts cursor (List.replicate n (0, cost)))[i]? = some (cursor + i * cost) := by
  induction n generalizing cursor i with
  | zero => exact absurd h (Nat.not_lt_zero i)
  | succ n ih =>
    rw [List.replicate_succ, starts, Nat.zero_max]
    cases i with
    | zero => simp
    | succ i =>
      rw [List.getElem?_cons_succ, ih (by omega), Nat.succ_mul]
      congr 1
      omega

/-- What starts in the window from `w` on that is `length` long, in order. -/
def inWindow (w length : Nat) (start : α → Nat) (l : List α) : List α :=
  l.filter fun a => w ≤ start a ∧ start a ≤ w + length

/-- **What starts in a window, less the last, costs no more than it is long.** The
invariant is that the cursor, if it is in the window, leaves room for it. -/
theorem sum_dropLast_inWindow_le (w length : Nat) {rs : List (Nat × Nat)} :
    (((inWindow w length Prod.snd ((rs.map Prod.snd).zip (starts cursor rs))).dropLast.map
      Prod.fst).sum) ≤ length := by
  suffices h : inWindow w length Prod.snd ((rs.map Prod.snd).zip (starts cursor rs)) ≠ [] →
      max cursor w + ((inWindow w length Prod.snd
        ((rs.map Prod.snd).zip (starts cursor rs))).dropLast.map Prod.fst).sum ≤ w + length by
    by_cases hnil : inWindow w length Prod.snd ((rs.map Prod.snd).zip (starts cursor rs)) = []
    · rw [hnil]
      exact Nat.zero_le _
    · have := h hnil
      omega
  induction rs generalizing cursor with
  | nil => exact fun h => absurd rfl h
  | cons r rs ih =>
    obtain ⟨now, cost⟩ := r
    intro hne
    have hrest := @ih (max now cursor + cost)
    generalize hl : inWindow w length Prod.snd
      ((rs.map Prod.snd).zip (starts (max now cursor + cost) rs)) = l at hrest
    by_cases hin : w ≤ max now cursor ∧ max now cursor ≤ w + length
    · have hcons : inWindow w length Prod.snd
          (((((now, cost) :: rs).map Prod.snd).zip (starts cursor ((now, cost) :: rs)))) =
          (cost, max now cursor) :: l := by
        rw [← hl, inWindow, inWindow, starts, List.map_cons, List.zip_cons_cons, List.filter_cons,
          if_pos (decide_eq_true hin)]
      rw [hcons]
      cases l with
      | nil =>
        rw [List.dropLast_singleton, List.map_nil, List.sum_nil]
        omega
      | cons x l =>
        have := hrest (List.cons_ne_nil _ _)
        rw [List.dropLast_cons_cons, List.map_cons, List.sum_cons]
        omega
    · have hskip : inWindow w length Prod.snd
          (((((now, cost) :: rs).map Prod.snd).zip (starts cursor ((now, cost) :: rs)))) = l := by
        rw [← hl, inWindow, inWindow, starts, List.map_cons, List.zip_cons_cons, List.filter_cons,
          if_neg (by simpa using hin)]
      rw [hskip] at hne ⊢
      have := hrest hne
      omega

/-- Sizes whose costs, rounded down, are within a budget are themselves within it, but
for less than one unit of it each. -/
theorem sum_mul_add_length_le {rate : Nat} (hrate : 0 < rate) (unit : Nat) (sizes : List Nat) :
    sizes.sum * unit + sizes.length ≤
      rate * ((sizes.map fun n => n * unit / rate).sum + sizes.length) := by
  induction sizes with
  | nil => simp
  | cons n sizes ih =>
    have hcost : n * unit < rate * (n * unit / rate + 1) := Nat.lt_mul_div_succ _ hrate
    have hsplit : rate * (n * unit / rate + (sizes.map fun n => n * unit / rate).sum +
        (sizes.length + 1)) = rate * (n * unit / rate + 1) +
          rate * ((sizes.map fun n => n * unit / rate).sum + sizes.length) := by
      rw [← Nat.mul_add]
      congr 1
      omega
    rw [List.sum_cons, List.map_cons, List.sum_cons, List.length_cons, Nat.add_mul]
    omega

end VirtualClock
