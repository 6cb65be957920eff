import Rs5cmd.Ratelimit

/-!
# The aggregate rate limit

The limiter schedules virtually: the bound on how far the cursor may lag behind never
matters, since a start is never before its call. The starts are those of a virtual
clock, for as long as they can be represented.
-/

namespace Rs5cmd

/-- What `n` bytes cost, in nanoseconds. -/
def nanosOf (rate n : Nat) : Nat := n * 1000000000 / rate

/-- The calls as reservations of the virtual clock. -/
def reservations (rate : Nat) (calls : List (Nat × Nat)) : List (Nat × Nat) :=
  calls.map fun c => (c.1, nanosOf rate c.2)

section Limiter

variable {rate clockEnd : Nat}

theorem divRateToNanos_eq {n : Nat} (hbytes : n < 2 ^ 64) :
    divRateToNanos n rate = some (min (nanosOf rate n) (2 ^ 64 - 1)) := by
  unfold divRateToNanos nanosOf
  rw [Checked.mul_of_lt (by omega), Option.map_some]

/-- How far a limiter of this rate lets its cursor lag behind. -/
def maxLag (rate : Nat) : Nat := nanosOf rate (max rate (5 * 1024 * 1024))

theorem maxLag_lt (hrate : 0 < rate) : maxLag rate < 2 ^ 64 := by
  unfold maxLag nanosOf
  refine Nat.div_lt_of_lt_mul ?_
  rcases Nat.le_total rate (5 * 1024 * 1024) with h | h
  · rw [Nat.max_eq_right h]
    omega
  · rw [Nat.max_eq_left h]
    omega

/-- A call that can be made. -/
structure Call (rate : Nat) (c : Nat × Nat) : Prop where
  pos : 0 < c.2
  bytes : c.2 < 2 ^ 64
  cost : nanosOf rate c.2 < 2 ^ 64

/-- The limiter that `new` makes, at whatever moment its cursor is. -/
def limiterAt (rate nextTime : Nat) : RateLimiter := { RateLimiter.new rate 0 with nextTime }

theorem limiterAt_set (rate next t : Nat) :
    { limiterAt rate next with nextTime := t } = limiterAt rate t := rfl

/-- A start at which neither the lag nor the cost passes the end of the clock. -/
def Representable (rate clockEnd start n : Nat) : Prop :=
  start + maxLag rate < clockEnd ∧ start + nanosOf rate n < clockEnd

instance (rate clockEnd start n : Nat) : Decidable (Representable rate clockEnd start n) :=
  inferInstanceAs (Decidable (_ ∧ _))

/-- **One call**: it starts when it is made or where the cursor is, and the lag never
matters. -/
theorem acquire_eq (hrate : 0 < rate) (hword : rate < 2 ^ 64) {now n next : Nat}
    (hcall : Call rate (now, n)) : (limiterAt rate next).acquire clockEnd n now =
      if Representable rate clockEnd (max now next) n then
        some (some (max now next), limiterAt rate (max now next + nanosOf rate n))
      else none := by
  have hcost : divRateToNanos n (limiterAt rate next).rate = some (nanosOf rate n) := by
    have hlt : nanosOf rate n < 2 ^ 64 := hcall.cost
    have heq : divRateToNanos n rate = _ := divRateToNanos_eq hcall.bytes
    rwa [Nat.min_eq_left (Nat.le_sub_one_of_lt hlt)] at heq
  have hlag : divRateToNanos (limiterAt rate next).burst (limiterAt rate next).rate =
      some (maxLag rate) := by
    have hburst : max rate (5 * 1024 * 1024) < 2 ^ 64 := Nat.max_lt.mpr ⟨hword, by decide⟩
    have heq : divRateToNanos (max rate (5 * 1024 * 1024)) rate = _ := divRateToNanos_eq hburst
    rwa [← maxLag, Nat.min_eq_left (Nat.le_sub_one_of_lt (maxLag_lt hrate))] at heq
  rw [acquire_of_cost (Nat.pos_iff_ne_zero.mp hcall.pos) (Nat.pos_iff_ne_zero.mp hrate) hcost hlag,
    reserve_eq]
  show (if Representable rate clockEnd (max now next) n then _ else none : Option (Nat × Nat)).map _ = _
  split
  · rw [Option.map_some, limiterAt_set]
    rfl
  · rfl

/-- **A run of calls** ends well just when the clock can represent all it comes to,
and then its starts are those of the virtual clock. -/
theorem run_eq_some_iff (hrate : 0 < rate) (hword : rate < 2 ^ 64) {calls : List (Nat × Nat)}
    (hcalls : ∀ c ∈ calls, Call rate c) {next : Nat} {starts : List Nat} :
    (∃ l, (limiterAt rate next).run clockEnd calls = some (starts, l)) ↔
      starts = VirtualClock.starts next (reservations rate calls) ∧
        ∀ p ∈ calls.zip (VirtualClock.starts next (reservations rate calls)),
          Representable rate clockEnd p.2 p.1.2 := by
  induction calls generalizing next starts with
  | nil => simp [RateLimiter.run, VirtualClock.starts, reservations, eq_comm]
  | cons c calls ih =>
    obtain ⟨now, n⟩ := c
    have hcall := hcalls _ List.mem_cons_self
    have hrest := fun starts => @ih (fun c hc => hcalls c (List.mem_cons_of_mem _ hc))
      (max now next + nanosOf rate n) starts
    have hstarts : VirtualClock.starts next (reservations rate ((now, n) :: calls)) =
        max now next :: VirtualClock.starts (max now next + nanosOf rate n) (reservations rate calls) := rfl
    rw [hstarts, List.zip_cons_cons, List.forall_mem_cons]
    unfold RateLimiter.run
    rw [acquire_eq hrate hword hcall]
    by_cases hrep : Representable rate clockEnd (max now next) n
    · rw [if_pos hrep]
      simp only [hrep, true_and]
      constructor
      · rintro ⟨l, h⟩
        have h : (RateLimiter.run clockEnd (limiterAt rate (max now next + nanosOf rate n))
          calls).bind _ = _ := h
        obtain ⟨⟨ss, l'⟩, hss, h⟩ := Option.bind_eq_some_iff.mp h
        obtain ⟨hrun, hall⟩ := (hrest ss).mp ⟨l', hss⟩
        obtain ⟨rfl, -⟩ := Prod.mk.inj (Option.some.inj h)
        exact ⟨by rw [hrun]; rfl, hall⟩
      · rintro ⟨rfl, hall⟩
        obtain ⟨l, hl⟩ := (hrest _).mpr ⟨rfl, hall⟩
        refine ⟨l, ?_⟩
        show (RateLimiter.run _ _ _).bind _ = _
        rw [hl]
        rfl
    · rw [if_neg hrep]
      refine iff_of_false ?_ fun h => hrep h.2.1
      rintro ⟨l, h⟩
      cases h

/-- The calls are admitted at the rate: the first starts when it is made, each of the
others when it is made or when the one before it is paid for, and what starts in a
window, less the last, is no more than the rate allows for it. -/
structure RateLimited (rate : Nat) (calls : List (Nat × Nat)) (starts : List Nat) : Prop where
  length : starts.length = calls.length
  first : starts.head? = calls.head?.map Prod.fst
  next : ∀ i now n now' n' s, calls[i]? = some (now, n) → calls[i + 1]? = some (now', n') →
    starts[i]? = some s → starts[i + 1]? = some (max now' (s + nanosOf rate n))
  window : ∀ w length (inside : List ((Nat × Nat) × Nat)),
    inside = (VirtualClock.inWindow w length Prod.snd (calls.zip starts)).dropLast →
    0 < length + inside.length →
    (inside.map fun r => r.1.2).sum * 1000000000 < rate * (length + inside.length)

/-- **The starts of the virtual clock admit the calls at the rate.** -/
theorem rateLimited_starts (hrate : 0 < rate) {calls : List (Nat × Nat)} {created : Nat}
    (hclock : (created :: calls.map Prod.fst).Pairwise (· ≤ ·)) :
    RateLimited rate calls (VirtualClock.starts created (reservations rate calls)) := by
  refine ⟨by simp [reservations], ?_, ?_, ?_⟩
  · cases calls with
    | nil => rfl
    | cons c calls =>
      have hle : created ≤ c.1 := List.rel_of_pairwise_cons hclock List.mem_cons_self
      show some (max c.1 created) = some c.1
      rw [Nat.max_eq_left hle]
  · intro i now n now' n' s hi hi' hs
    refine @VirtualClock.getElem?_starts_succ created (reservations rate calls) i now (nanosOf rate n)
      now' (nanosOf rate n') s ?_ ?_ hs
    · rw [reservations, List.getElem?_map, hi]
      rfl
    · rw [reservations, List.getElem?_map, hi']
      rfl
  · rintro w length inside rfl hpos
    generalize hstarts : VirtualClock.starts created (reservations rate calls) = starts
    have hcosts : (VirtualClock.inWindow w length Prod.snd
        (((reservations rate calls).map Prod.snd).zip starts)).dropLast.map Prod.fst =
        ((VirtualClock.inWindow w length Prod.snd (calls.zip starts)).dropLast.map fun r => r.1.2).map
          (nanosOf rate) := by
      have hzip : ((reservations rate calls).map Prod.snd).zip starts =
          (calls.zip starts).map fun r => (nanosOf rate r.1.2, r.2) := by
        rw [reservations, List.map_map, List.zip_map_left]
        rfl
      rw [hzip, VirtualClock.inWindow, List.filter_map, ← List.map_dropLast, List.map_map, List.map_map]
      rfl
    have hbudget := @VirtualClock.sum_dropLast_inWindow_le created w length (reservations rate calls)
    rw [hstarts] at hpos hbudget
    rw [hcosts] at hbudget
    generalize (VirtualClock.inWindow w length Prod.snd (calls.zip starts)).dropLast = inside at *
    have hsizes : (inside.map fun r => r.1.2).sum * 1000000000 + (inside.map fun r => r.1.2).length ≤
        rate * (((inside.map fun r => r.1.2).map (nanosOf rate)).sum +
          (inside.map fun r => r.1.2).length) :=
      VirtualClock.sum_mul_add_length_le hrate 1000000000 _
    rw [List.length_map] at hsizes
    have hmono := Nat.mul_le_mul_left rate (Nat.add_le_add_right hbudget inside.length)
    rcases Nat.eq_zero_or_pos inside.length with hzero | hsome
    · have hmul : 0 < rate * (length + inside.length) := Nat.mul_pos hrate hpos
      rw [List.eq_nil_of_length_eq_zero hzero] at hmul ⊢
      simpa using hmul
    · omega

/-- **The aggregate limit**: every sequence of calls is admitted at the rate, as long
as the clock can represent the moments it comes to. -/
theorem rate_limit (hrate : 0 < rate) (hword : rate < 2 ^ 64) {calls : List (Nat × Nat)}
    (hcalls : ∀ c ∈ calls, Call rate c) {created : Nat}
    (hclock : (created :: calls.map Prod.fst).Pairwise (· ≤ ·))
    (hend : ∀ p ∈ calls.zip (VirtualClock.starts created (reservations rate calls)),
      Representable rate clockEnd p.2 p.1.2) :
    ∃ starts l, (RateLimiter.new rate created).run clockEnd calls = some (starts, l) ∧
      RateLimited rate calls starts := by
  obtain ⟨l, hrun⟩ := (run_eq_some_iff hrate hword hcalls).mpr ⟨rfl, hend⟩
  exact ⟨_, l, hrun, rateLimited_starts hrate hclock⟩

end Limiter

namespace RateLimitSample

/-- Three calls at 1000 bytes a second, the last after an idle minute. -/
def calls : List (Nat × Nat) := [(0, 100), (0, 100), (60000000000, 100)]

/-- The first instant that an `Instant` of 64-bit seconds cannot represent. -/
def clockEnd : Nat := 2 ^ 63 * 1000000000

theorem rate_limit_calls :
    ∃ starts l, (RateLimiter.new 1000 0).run clockEnd calls = some (starts, l) ∧
      RateLimited 1000 calls starts := by
  have hcalls : ∀ c ∈ calls, Call 1000 c := by
    have hall : ∀ c ∈ calls, 0 < c.2 ∧ c.2 < 2 ^ 64 ∧ nanosOf 1000 c.2 < 2 ^ 64 := by decide
    exact fun c hc => ⟨(hall c hc).1, (hall c hc).2.1, (hall c hc).2.2⟩
  exact rate_limit (by decide) (by decide) hcalls (by decide) (by decide)

/-- As many calls at once as it takes, each for as much as a cost can be. -/
def flood : List (Nat × Nat) := List.replicate 500000001 (0, 18446744073)

theorem mem_flood {c : Nat × Nat} (hc : c ∈ flood) : c = (0, 18446744073) :=
  List.eq_of_mem_replicate hc

theorem call_flood {c : Nat × Nat} (hc : c ∈ flood) : Call 1 c := by
  rw [mem_flood hc]
  exact ⟨by decide, by decide, by decide⟩

theorem mem_zip_replicate {rate n c i : Nat} (h : i < n) : ((0, c), 0 + i * nanosOf rate c) ∈
    (List.replicate n (0, c)).zip
      (VirtualClock.starts 0 (reservations rate (List.replicate n (0, c)))) := by
  refine List.mem_of_getElem? (List.getElem?_zip_eq_some.mpr ⟨List.getElem?_replicate_of_lt h, ?_⟩)
  rw [reservations, List.map_replicate]
  exact VirtualClock.getElem?_starts_replicate h

/-- At one byte a second the cursor passes the end of the clock. -/
theorem rate_limit_flood : (∀ c ∈ flood, Call 1 c) ∧ (0 :: flood.map Prod.fst).Pairwise (· ≤ ·) ∧
    ¬ ∃ starts l, (RateLimiter.new 1 0).run clockEnd flood = some (starts, l) := by
  refine ⟨fun c hc => call_flood hc, ?_, ?_⟩
  · rw [flood, List.map_replicate, ← List.replicate_succ]
    exact List.pairwise_replicate.mpr (.inr (Nat.le_refl 0))
  · rintro ⟨starts, l, hrun⟩
    obtain ⟨-, hall⟩ := (run_eq_some_iff (by decide) (by decide) fun c hc => call_flood hc).mp ⟨l, hrun⟩
    have hlast := (hall _ (mem_zip_replicate (by decide : 500000000 < 500000001))).2
    exact absurd hlast (by decide)

end RateLimitSample

end Rs5cmd
