import Mathlib.Data.Option.Basic

/-!
# Checked arithmetic

An operation on machine words gives its exact value, or nothing where that does not
fit. `bound` is the first value that the word cannot hold.
-/

namespace Checked

/-- The value, if the word can hold it. -/
def fit (bound n : Nat) : Option Nat := if n < bound then some n else none

def add (bound a b : Nat) : Option Nat := fit bound (a + b)

def mul (bound a b : Nat) : Option Nat := fit bound (a * b)

/-- Subtraction that does not underflow. -/
def sub (a b : Nat) : Option Nat := if b ≤ a then some (a - b) else none

variable {bound a b n : Nat}

theorem fit_eq_none : fit bound n = none ↔ bound ≤ n := by
  unfold fit
  split
  · rename_i h
    simp [h]
  · rename_i h
    simp only [true_iff]
    omega

theorem fit_of_lt (h : n < bound) : fit bound n = some n := if_pos h

theorem add_of_lt (h : a + b < bound) : add bound a b = some (a + b) := fit_of_lt h

theorem mul_of_lt (h : a * b < bound) : mul bound a b = some (a * b) := fit_of_lt h

theorem sub_of_le (h : b ≤ a) : sub a b = some (a - b) := if_pos h

end Checked
