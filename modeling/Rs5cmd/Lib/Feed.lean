import Mathlib.Data.List.Basic

/-!
# Feeds

A feed gives its elements in order, as many at a time as it pleases: a read asks for
at most `want` of them and gets at least one, nothing at the end, or an error.
-/

/-- A feed: what is still to come, and how the coming reads go. A read gives one
element more than its entry says, and all that is asked for once there are no more
entries. -/
structure Feed (α ε : Type*) where
  rest : List α
  reads : List (Except ε Nat) := []

namespace Feed

variable {α ε : Type*}

/-- One read, of at most `want` elements. -/
def read (f : Feed α ε) (want : Nat) : Except ε (List α) × Feed α ε :=
  match f.reads with
  | [] => (.ok (f.rest.take want), { f with rest := f.rest.drop want })
  | .error e :: reads => (.error e, { f with reads })
  | .ok k :: reads =>
    (.ok (f.rest.take (min want (k + 1))), ⟨f.rest.drop (min want (k + 1)), reads⟩)

/-- Reads until there are `want` elements or the feed has ended, for at most `fuel`
reads. -/
def fill : Nat → Feed α ε → Nat → Except ε (List α) × Feed α ε
  | 0, f, _ => (.ok [], f)
  | fuel + 1, f, want =>
    if want = 0 then (.ok [], f)
    else
      match f.read want with
      | (.error e, f) => (.error e, f)
      | (.ok [], f) => (.ok [], f)
      | (.ok (x :: xs), f) =>
        match fill fuel f (want - (x :: xs).length) with
        | (.error e, f) => (.error e, f)
        | (.ok ys, f) => (.ok (x :: xs ++ ys), f)

variable {f f' : Feed α ε} {want : Nat} {xs : List α}

/-- What a read can give. -/
theorem read_cases (h : f.read want = (.ok xs, f')) :
    ∃ n ≤ want, (want = 0 ∨ 0 < n) ∧ xs = f.rest.take n ∧ f'.rest = f.rest.drop n := by
  unfold read at h
  split at h
  · obtain ⟨hxs, rfl⟩ := Prod.mk.inj h
    obtain rfl := Except.ok.inj hxs
    exact ⟨want, Nat.le_refl _, Nat.eq_zero_or_pos want, rfl, rfl⟩
  · cases (Prod.mk.inj h).1
  · rename_i k reads hreads
    obtain ⟨hxs, rfl⟩ := Prod.mk.inj h
    obtain rfl := Except.ok.inj hxs
    refine ⟨_, Nat.min_le_left _ _, ?_, rfl, rfl⟩
    rcases Nat.eq_zero_or_pos want with hz | hpos
    · exact .inl hz
    · exact .inr (Nat.lt_min.mpr ⟨hpos, Nat.succ_pos k⟩)

/-- **However the feed is read, it gives its elements in order**: what is filled is
its beginning, and the rest is still to come. -/
theorem fill_eq_ok {fuel : Nat} (hfuel : want ≤ fuel) (h : fill fuel f want = (.ok xs, f')) :
    xs = f.rest.take want ∧ f'.rest = f.rest.drop want := by
  induction fuel generalizing f want xs with
  | zero =>
    obtain rfl := Nat.le_zero.mp hfuel
    obtain ⟨hxs, rfl⟩ := Prod.mk.inj h
    exact ⟨(Except.ok.inj hxs).symm, rfl⟩
  | succ fuel ih =>
    unfold fill at h
    split at h
    · rename_i hzero
      obtain ⟨hxs, rfl⟩ := Prod.mk.inj h
      rw [hzero]
      exact ⟨(Except.ok.inj hxs).symm, rfl⟩
    · rename_i hpos
      split at h
      · cases (Prod.mk.inj h).1
      · -- the end of the feed
        rename_i g hread
        obtain ⟨n, -, hn, hnil, hg⟩ := read_cases hread
        obtain ⟨hxs, rfl⟩ := Prod.mk.inj h
        obtain rfl := Except.ok.inj hxs
        have hrest : f.rest = [] := (List.take_eq_nil_iff.mp hnil.symm).resolve_left (by omega)
        rw [hg, hrest, List.take_nil, List.drop_nil, List.drop_nil]
        exact ⟨rfl, rfl⟩
      · rename_i x ys g hread
        obtain ⟨n, hle, hn, hys, hg⟩ := read_cases hread
        split at h
        · cases (Prod.mk.inj h).1
        · rename_i zs g' hfill
          obtain ⟨hxs, rfl⟩ := Prod.mk.inj h
          obtain rfl := Except.ok.inj hxs
          have hlen : (x :: ys).length = min n f.rest.length := by rw [hys, List.length_take]
          have hone : 0 < (x :: ys).length := Nat.succ_pos _
          obtain ⟨hzs, hg'⟩ := ih (by omega) hfill
          rw [hzs, hg', hg, hys]
          -- a read that is cut short by the end leaves nothing
          rcases Nat.le_total n f.rest.length with hin | hout
          · have hn' : (List.take n f.rest).length = n := by rw [← hys]; omega
            rw [hn', List.drop_drop, ← List.take_add, Nat.add_sub_cancel' hle]
            exact ⟨rfl, rfl⟩
          · rw [List.drop_eq_nil_of_le hout, List.take_nil, List.drop_nil, List.append_nil,
              List.take_of_length_le hout, List.take_of_length_le (by omega),
              List.drop_eq_nil_of_le (by omega)]
            exact ⟨rfl, rfl⟩

end Feed
