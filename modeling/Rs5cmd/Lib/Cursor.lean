import Mathlib.Data.List.Basic
import Mathlib.Data.List.Chain

/-!
# Reading a list by position while it changes

A list is read in pages. Each page is cut from the list as it is at that time, from
the position where the page before it stopped. An item that moves across such a
position in between is skipped when it moves forward and read again when it moves
backward; nothing else can go wrong, so counting these moves tells how often an
item is read.
-/

namespace Cursor

variable {α : Type*}

/-- The list when a page was read, and the positions it was read from and to. -/
structure Page (α : Type*) where
  items : List α
  start : Nat
  stop : Nat

/-- The items of the page. -/
def Page.got (p : Page α) : List α := (p.items.take p.stop).drop p.start

/-- Each page starts where the one before it stopped, the first at the beginning. -/
structure Continues (pages : List (Page α)) : Prop where
  first : ∀ p ∈ pages.head?, p.start = 0
  forward : ∀ p ∈ pages, p.start ≤ p.stop
  chain : pages.IsChain fun p q => q.start = p.stop

theorem Continues.concat {pages : List (Page α)} (h : Continues pages) {p : Page α}
    (hfirst : pages = [] → p.start = 0) (hstop : ∀ q ∈ pages.getLast?, p.start = q.stop)
    (hforward : p.start ≤ p.stop) : Continues (pages ++ [p]) where
  first := by
    intro q hq
    cases pages with
    | nil =>
      obtain rfl := Option.some.inj hq
      exact hfirst rfl
    | cons r rest => exact h.first q hq
  forward := by
    intro q hq
    rcases List.mem_append.mp hq with hq | hq
    · exact h.forward q hq
    · rw [List.mem_singleton.mp hq]
      exact hforward
  chain := by
    refine List.isChain_append.mpr ⟨h.chain, List.isChain_singleton p, ?_⟩
    intro q hq r hr
    obtain rfl := Option.some.inj hr
    exact hstop q hq

variable [BEq α]

theorem count_take_stop (x : α) {p : Page α} (h : p.start ≤ p.stop) :
    (p.items.take p.stop).count x = (p.items.take p.start).count x + p.got.count x := by
  have hsplit : p.items.take p.stop = p.items.take p.start ++ p.got := by
    have hcut := List.take_append_drop p.start (p.items.take p.stop)
    rw [List.take_take, Nat.min_eq_left h] at hcut
    exact hcut.symm
  rw [hsplit, List.count_append]

variable [LawfulBEq α]

/-- How often `x` was still ahead when a page stopped and is behind it when the
next one starts. -/
def skipped (x : α) : List (Page α) → Nat
  | p :: q :: rest =>
    (if x ∉ p.items.take p.stop ∧ x ∈ q.items.take q.start then 1 else 0) + skipped x (q :: rest)
  | _ => 0

/-- How often `x` was behind when a page stopped and is ahead of it again when the
next one starts. -/
def repeated (x : α) : List (Page α) → Nat
  | p :: q :: rest =>
    (if x ∈ p.items.take p.stop ∧ x ∉ q.items.take q.start then 1 else 0) + repeated x (q :: rest)
  | _ => 0

theorem count_take_of_le_one {x : α} {l : List α} (h : l.count x ≤ 1) (n : Nat) :
    (l.take n).count x = if x ∈ l.take n then 1 else 0 := by
  have hle : (l.take n).count x ≤ l.count x := (List.take_sublist n l).count_le x
  split
  · rename_i hmem
    have := List.count_pos_iff.mpr hmem
    omega
  · rename_i hmem
    exact List.count_eq_zero.mpr hmem

/-- What is read of `x` from the first page on, with what was behind it before. -/
theorem count_got_add_skipped {x : α} {pages : List (Page α)}
    (hchain : pages.IsChain fun p q => q.start = p.stop) (hforward : ∀ p ∈ pages, p.start ≤ p.stop)
    (hone : ∀ p ∈ pages, p.items.count x ≤ 1) {p q : Page α} (hp : pages.head? = some p)
    (hq : pages.getLast? = some q) :
    (pages.flatMap Page.got).count x + (p.items.take p.start).count x + skipped x pages =
      (q.items.take q.stop).count x + repeated x pages := by
  induction pages generalizing p with
  | nil => cases hp
  | cons r rest ih =>
    obtain rfl := Option.some.inj hp
    have hstop := count_take_stop x (hforward r List.mem_cons_self)
    cases rest with
    | nil =>
      obtain rfl : r = q := Option.some.inj hq
      simp only [List.flatMap_cons, List.flatMap_nil, List.append_nil, skipped, repeated]
      omega
    | cons t rest =>
      rw [List.isChain_cons_cons] at hchain
      have ih := ih hchain.2 (fun u hu => hforward u (List.mem_cons_of_mem _ hu))
        (fun u hu => hone u (List.mem_cons_of_mem _ hu)) rfl
        (by rw [← hq, List.getLast?_cons_cons])
      -- a move across the position is the only thing that changes between two pages
      have hr := count_take_of_le_one (hone r List.mem_cons_self) r.stop
      have ht := count_take_of_le_one (hone t (List.mem_cons_of_mem _ List.mem_cons_self)) t.start
      rw [List.flatMap_cons, List.count_append]
      simp only [skipped, repeated]
      by_cases hmr : x ∈ r.items.take r.stop <;> by_cases hmt : x ∈ t.items.take t.start <;>
        simp only [hmr, hmt, not_true_eq_false, not_false_eq_true, and_true, and_false,
          if_true, if_false] at hr ht ⊢ <;> omega

/-- In a walk to the end, an item that is always there is read once if and only if
it is skipped as often as it is repeated. -/
theorem count_got_eq_one_iff {x : α} {pages : List (Page α)} (h : Continues pages)
    (hone : ∀ p ∈ pages, p.items.count x = 1) {q : Page α} (hq : pages.getLast? = some q)
    (hend : q.items.length ≤ q.stop) :
    (pages.flatMap Page.got).count x = 1 ↔ skipped x pages = repeated x pages := by
  have hp : ∃ p, pages.head? = some p := by
    cases pages with
    | nil => cases hq
    | cons p rest => exact ⟨p, rfl⟩
  obtain ⟨p, hp⟩ := hp
  have hbalance := count_got_add_skipped h.chain h.forward (fun r hr => (hone r hr).le) hp hq
  have hstart : (p.items.take p.start).count x = 0 := by
    rw [h.first p hp, List.take_zero, List.count_nil]
  have hlast : (q.items.take q.stop).count x = 1 := by
    rw [List.take_of_length_le hend]
    exact hone q (List.mem_of_getLast? hq)
  omega

end Cursor
