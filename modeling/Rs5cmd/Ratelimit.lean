import Rs5cmd.Lib.Checked
import Rs5cmd.Lib.VirtualClock

/-!
# The bandwidth limiter (`ratelimit.rs`)

A cursor that all tasks share is the earliest moment at which the next bytes may
flow. The arithmetic is checked: `none` is a panic. Instants are nanoseconds since
the clock began, and `clockEnd` is the first one that it cannot represent.
-/

namespace Rs5cmd

structure RateLimiter where
  rate : Nat
  nextTime : Nat
  burst : Nat
  deriving DecidableEq, Repr

/-- `div_rate_to_nanos`: the product is a `u128`, and the quotient saturates. -/
def divRateToNanos (bytes rate : Nat) : Option Nat :=
  (Checked.mul (2 ^ 128) bytes 1000000000).map fun nanos => min (nanos / rate) (2 ^ 64 - 1)

namespace RateLimiter

/-- `RateLimiter::new`. -/
def new (rate now : Nat) : RateLimiter where
  rate := rate
  nextTime := now
  burst := max rate (5 * 1024 * 1024)

/-- Bounds how far the start may have fallen behind. -/
def boundLag (start now late maxLag : Nat) : Option Nat :=
  if now > late then Checked.sub now maxLag else some start

/-- What `acquire` does under the lock, at `now`: the start of a reservation of that
cost, and where it leaves the cursor. -/
def reserve (clockEnd nextTime now cost maxLag : Nat) : Option (Nat × Nat) := do
  let start := if nextTime > now then nextTime else now
  let late ← Checked.add clockEnd start maxLag
  let start ← boundLag start now late maxLag
  let next ← Checked.add clockEnd start cost
  return (start, next)

/-- `acquire`, up to its sleep: the start of the reservation, unless there is none. -/
def acquire (clockEnd : Nat) (l : RateLimiter) (n now : Nat) : Option (Option Nat × RateLimiter) :=
  if n = 0 ∨ l.rate = 0 then some (none, l)
  else do
    let cost ← divRateToNanos n l.rate
    let maxLag ← divRateToNanos l.burst l.rate
    let (start, next) ← reserve clockEnd l.nextTime now cost maxLag
    return (some start, { l with nextTime := next })

/-- How long `acquire` sleeps, on another look at the clock. -/
def sleep (start now : Nat) : Option Nat := if start > now then Checked.sub start now else some 0

/-- The calls `(now, n)` in the order in which they take the lock, and their starts. -/
def run (clockEnd : Nat) (l : RateLimiter) : List (Nat × Nat) → Option (List Nat × RateLimiter)
  | [] => some ([], l)
  | (now, n) :: calls => do
    let (start, l) ← l.acquire clockEnd n now
    let (starts, l) ← run clockEnd l calls
    return (start.toList ++ starts, l)

/-- **A task wakes at its start**, or goes on at once if that is past: the sleep cannot
overflow. -/
theorem sleep_ends (start now : Nat) : ∃ d, sleep start now = some d ∧ now + d = max start now := by
  unfold sleep
  split
  · rename_i hlater
    exact ⟨start - now, Checked.sub_of_le (Nat.le_of_lt hlater), by omega⟩
  · exact ⟨0, rfl, by omega⟩

end RateLimiter

/-- A reservation starts at its call or at the cursor, which is never before the call,
so that the bound on the lag does not matter. -/
theorem reserve_eq (clockEnd nextTime now cost maxLag : Nat) :
    RateLimiter.reserve clockEnd nextTime now cost maxLag =
      if max now nextTime + maxLag < clockEnd ∧ max now nextTime + cost < clockEnd then
        some (max now nextTime, max now nextTime + cost)
      else none := by
  have hstart : (if nextTime > now then nextTime else now) = max now nextTime := by
    split
    · exact (Nat.max_eq_right (by omega)).symm
    · exact (Nat.max_eq_left (by omega)).symm
  have hnow : now ≤ max now nextTime := Nat.le_max_left _ _
  unfold RateLimiter.reserve
  simp only [hstart]
  generalize max now nextTime = start at *
  have hbound : RateLimiter.boundLag start now (start + maxLag) maxLag = some start :=
    if_neg (by omega)
  by_cases hl : start + maxLag < clockEnd
  · by_cases hc : start + cost < clockEnd
    · rw [Checked.add_of_lt hl, if_pos ⟨hl, hc⟩]
      simp only [Option.bind_eq_bind, Option.bind_some, hbound, Checked.add_of_lt hc]
      rfl
    · rw [Checked.add_of_lt hl, if_neg fun h => hc h.2]
      simp only [Option.bind_eq_bind, Option.bind_some, hbound, Checked.add,
        Checked.fit_eq_none.mpr (Nat.le_of_not_lt hc), Option.bind_none]
  · rw [if_neg fun h => hl h.1, Checked.add, Checked.fit_eq_none.mpr (Nat.le_of_not_lt hl)]
    rfl

theorem acquire_of_cost {clockEnd n now cost maxLag : Nat} {l : RateLimiter} (hn : n ≠ 0)
    (hrate : l.rate ≠ 0) (hcost : divRateToNanos n l.rate = some cost)
    (hlag : divRateToNanos l.burst l.rate = some maxLag) :
    l.acquire clockEnd n now = (RateLimiter.reserve clockEnd l.nextTime now cost maxLag).map fun r =>
      (some r.1, { l with nextTime := r.2 }) := by
  unfold RateLimiter.acquire
  rw [if_neg (by omega), hcost, hlag]
  cases hr : RateLimiter.reserve clockEnd l.nextTime now cost maxLag with
  | none => simp only [Option.bind_eq_bind, Option.bind_some, hr, Option.bind_none, Option.map_none]
  | some r =>
    simp only [Option.bind_eq_bind, Option.bind_some, hr, Option.map_some]
    rfl

end Rs5cmd
