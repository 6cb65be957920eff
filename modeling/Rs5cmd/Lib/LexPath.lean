import Mathlib.Data.List.Basic
import Mathlib.Data.List.Forall2
import Mathlib.Data.List.Infix

/-!
# Lexical paths

A path, read lexically, is a start point (the root, or wherever a relative
path is interpreted) followed by segments that either go down to a name or
climb one level. Nothing is looked up: `a/..` cancels, a climb above the root
stays at the root, and a climb above a relative start is remembered.

`Loc` is the normal form: how far above the start a location lies and which
names lead down to it. The root cannot be climbed, so `Loc` carries that fact
as a field. `walk` follows a segment list from a location, and `norm` is the
normal form of a segment list on its own (`k` climbs, then names `t`), so that
`walk` factors through it (`walk_eq_descend_climb`). The containment question —
does a walk that starts at `b` end below `b` — then has an exact answer in
terms of `k` and `t` (`inside_walk_iff`).
-/

namespace LexPath

universe u v

/-- One segment of a path: go down to a name, or climb one level. -/
inductive Seg (α : Type u) where
  | name (a : α)
  | up
  deriving DecidableEq, Repr

/-- A lexical location: `ups` levels above the start, then down along `names`.
The root has nothing above it. -/
@[ext]
structure Loc (α : Type u) where
  rooted : Bool
  ups : Nat
  names : List α
  rootUps : rooted = true → ups = 0
  deriving DecidableEq

variable {α : Type u}

/-- The location a path starts from. -/
def Loc.start (rooted : Bool) : Loc α := ⟨rooted, 0, [], fun _ => rfl⟩

/-- Go down along a list of names. -/
def Loc.descend (l : Loc α) (w : List α) : Loc α :=
  { l with names := l.names ++ w }

/-- Climb `k` levels: names are dropped first; past them the root stays where
it is and a relative start moves up. -/
def Loc.climb (l : Loc α) (k : Nat) : Loc α where
  rooted := l.rooted
  ups := if l.rooted then l.ups else l.ups + (k - l.names.length)
  names := l.names.take (l.names.length - k)
  rootUps := by intro h; simp [h, l.rootUps h]

/-- Follow one segment. -/
def Loc.step (l : Loc α) : Seg α → Loc α
  | .name a => l.descend [a]
  | .up => l.climb 1

/-- Follow a list of segments. -/
def Loc.walk (l : Loc α) (s : List (Seg α)) : Loc α := s.foldl Loc.step l

@[simp] theorem Loc.walk_nil (l : Loc α) : l.walk [] = l := rfl

@[simp] theorem Loc.walk_cons (l : Loc α) (x : Seg α) (s : List (Seg α)) :
    l.walk (x :: s) = (l.step x).walk s := rfl

theorem Loc.walk_append (l : Loc α) (s s' : List (Seg α)) :
    l.walk (s ++ s') = (l.walk s).walk s' := by
  simp [Loc.walk, List.foldl_append]

@[simp] theorem Loc.descend_nil (l : Loc α) : l.descend [] = l := by
  cases l; simp [Loc.descend]

@[simp] theorem Loc.descend_descend (l : Loc α) (w w' : List α) :
    (l.descend w).descend w' = l.descend (w ++ w') := by
  simp [Loc.descend, List.append_assoc]

@[simp] theorem Loc.descend_rooted (l : Loc α) (w : List α) :
    (l.descend w).rooted = l.rooted := rfl

@[simp] theorem Loc.descend_ups (l : Loc α) (w : List α) :
    (l.descend w).ups = l.ups := rfl

@[simp] theorem Loc.descend_names (l : Loc α) (w : List α) :
    (l.descend w).names = l.names ++ w := rfl

@[simp] theorem Loc.climb_rooted (l : Loc α) (k : Nat) :
    (l.climb k).rooted = l.rooted := rfl

/-- A walk along names only goes down. -/
@[simp] theorem Loc.walk_names (l : Loc α) (w : List α) :
    l.walk (w.map Seg.name) = l.descend w := by
  induction w generalizing l with
  | nil => simp
  | cons a w ih =>
    rw [List.map_cons, Loc.walk_cons, ih]
    simp [Loc.step]

/-- The names at the end of a walk come from its start or from its segments. -/
theorem Loc.mem_names_walk {l : Loc α} {s : List (Seg α)} {a : α} (h : a ∈ (l.walk s).names) :
    a ∈ l.names ∨ .name a ∈ s := by
  induction s generalizing l with
  | nil => exact .inl h
  | cons x s ih =>
    rcases ih h with h | h
    · cases x with
      | name b =>
        rcases List.mem_append.mp h with h | h
        · exact .inl h
        · obtain rfl := List.mem_singleton.mp h
          exact .inr List.mem_cons_self
      | up => exact .inl (List.mem_of_mem_take h)
    · exact .inr (List.mem_cons_of_mem x h)

@[simp] theorem Loc.climb_zero (l : Loc α) : l.climb 0 = l := by
  apply Loc.ext <;> simp [Loc.climb]

theorem Loc.climb_climb_one (l : Loc α) (k : Nat) :
    (l.climb k).climb 1 = l.climb (k + 1) := by
  apply Loc.ext
  · rfl
  · simp only [Loc.climb, List.length_take]
    split
    · rfl
    · omega
  · simp only [Loc.climb, List.length_take, List.take_take]
    congr 1
    omega

/-- Climbing one level right after going down to a name undoes it. -/
theorem Loc.climb_one_descend {l : Loc α} {t : List α} (ht : t ≠ []) :
    (l.descend t).climb 1 = l.descend t.dropLast := by
  have hlen : 0 < t.length := List.length_pos_of_ne_nil ht
  apply Loc.ext
  · rfl
  · simp only [Loc.climb, Loc.descend_rooted, Loc.descend_ups, Loc.descend_names,
      List.length_append]
    split
    · rfl
    · omega
  · simp only [Loc.climb, Loc.descend_names]
    rw [List.dropLast_eq_take, List.length_append,
      show l.names.length + t.length - 1 = l.names.length + (t.length - 1) by omega,
      List.take_length_add_append]

/-- A walk of climbs only is a climb. -/
theorem Loc.walk_replicate_up (l : Loc α) (k : Nat) :
    l.walk (List.replicate k .up) = l.climb k := by
  induction k with
  | zero => simp
  | succ k ih =>
    rw [List.replicate_succ', Loc.walk_append, ih]
    exact Loc.climb_climb_one l k

/-! ## The normal form of a segment list -/

/-- One step of `norm`: a climb cancels the last name, if there is one. -/
def normStep (kt : Nat × List α) : Seg α → Nat × List α
  | .name a => (kt.1, kt.2 ++ [a])
  | .up => if kt.2.isEmpty then (kt.1 + 1, []) else (kt.1, kt.2.dropLast)

/-- The normal form of a segment list: climbs, then names. -/
def norm (s : List (Seg α)) : Nat × List α := s.foldl normStep (0, [])

theorem walk_from (l : Loc α) (s : List (Seg α)) (kt : Nat × List α) :
    ((l.climb kt.1).descend kt.2).walk s =
      (l.climb (s.foldl normStep kt).1).descend (s.foldl normStep kt).2 := by
  induction s generalizing kt with
  | nil => rfl
  | cons x s ih =>
    rw [Loc.walk_cons, List.foldl_cons, ← ih]
    congr 1
    cases x with
    | name a => simp [Loc.step, normStep]
    | up =>
      by_cases ht : kt.2 = []
      · simp [Loc.step, normStep, ht, Loc.climb_climb_one]
      · have hE : kt.2.isEmpty = false := by simpa using ht
        simp only [Loc.step, normStep, hE, Bool.false_eq_true, if_false]
        exact Loc.climb_one_descend ht

/-- A walk is a climb followed by a descent. -/
theorem walk_eq_descend_climb (l : Loc α) (s : List (Seg α)) :
    l.walk s = (l.climb (norm s).1).descend (norm s).2 := by
  simpa [norm] using walk_from l s (0, [])

/-- Where a walk from a relative start leads: the climbs and names of the normal form. -/
theorem walk_start_false (s : List (Seg α)) :
    (Loc.start false).walk s = ⟨false, (norm s).1, (norm s).2, fun h => absurd h Bool.false_ne_true⟩ := by
  rw [walk_eq_descend_climb]
  apply Loc.ext
  · rfl
  · simp [Loc.climb, Loc.start]
  · simp [Loc.climb, Loc.start]

/-- A walk can be replaced by the shortest one to the same place from a relative start. -/
theorem walk_shortest (l : Loc α) (s : List (Seg α)) :
    l.walk (List.replicate ((Loc.start false).walk s).ups .up ++
      ((Loc.start false).walk s).names.map .name) = l.walk s := by
  rw [walk_start_false, Loc.walk_append, Loc.walk_replicate_up, Loc.walk_names,
    walk_eq_descend_climb l s]

/-! ## Containment -/

/-- `l` lies at or below `b`. -/
def Inside (b l : Loc α) : Prop :=
  l.rooted = b.rooted ∧ l.ups = b.ups ∧ b.names <+: l.names

theorem inside_iff_descend {b l : Loc α} : Inside b l ↔ ∃ w, l = b.descend w := by
  constructor
  · rintro ⟨hr, hu, w, hw⟩
    refine ⟨w, Loc.ext hr hu hw.symm⟩
  · rintro ⟨w, rfl⟩
    exact ⟨rfl, rfl, List.prefix_append _ _⟩

/-- A climb of `k` levels from `b` followed by a descent along `t` ends below
`b`: the climb does not leave a relative start behind, and the descent first
retraces the names that were climbed. -/
def Returns (b : Loc α) (k : Nat) (t : List α) : Prop :=
  (b.rooted = true ∨ k ≤ b.names.length) ∧
    b.names.drop (b.names.length - k) <+: t

instance [DecidableEq α] (b : Loc α) (k : Nat) (t : List α) :
    Decidable (Returns b k t) :=
  inferInstanceAs (Decidable (_ ∧ _))

/-- **Containment, exactly.** A walk from `b` ends at or below `b` iff its
normal form returns to `b`. -/
theorem inside_walk_iff (b : Loc α) (s : List (Seg α)) :
    Inside b (b.walk s) ↔ Returns b (norm s).1 (norm s).2 := by
  rw [walk_eq_descend_climb]
  generalize (norm s).1 = k
  generalize (norm s).2 = t
  have hsplit : b.names = b.names.take (b.names.length - k) ++
      b.names.drop (b.names.length - k) := (List.take_append_drop _ _).symm
  have hpre : b.names <+: b.names.take (b.names.length - k) ++ t ↔
      b.names.drop (b.names.length - k) <+: t := by
    conv_lhs => lhs; rw [hsplit]
    exact List.prefix_append_right_inj _
  constructor
  · rintro ⟨-, hu, hn⟩
    refine ⟨?_, hpre.mp hn⟩
    by_cases hr : b.rooted = true
    · exact Or.inl hr
    · right
      simp only [Loc.descend_ups, Loc.climb, hr, Bool.false_eq_true, if_false] at hu
      omega
  · rintro ⟨hk, hn⟩
    refine ⟨rfl, ?_, hpre.mpr hn⟩
    simp only [Loc.descend_ups, Loc.climb]
    split
    · rfl
    · rename_i hr
      rcases hk with h | h
      · exact absurd h hr
      · omega

/-! ## Paths that go the same way -/

section Rel

variable {β : Type v} {R : α → β → Prop}

/-- Two segments that move alike, along related names. -/
inductive Seg.Rel (R : α → β → Prop) : Seg α → Seg β → Prop where
  | name {a : α} {b : β} (h : R a b) : Seg.Rel R (.name a) (.name b)
  | up : Seg.Rel R .up .up

/-- Two locations on the same level, with related names. -/
structure Loc.Rel (R : α → β → Prop) (l : Loc α) (m : Loc β) : Prop where
  rooted : l.rooted = m.rooted
  ups : l.ups = m.ups
  names : List.Forall₂ R l.names m.names

theorem Loc.Rel.start (r : Bool) : Loc.Rel R (.start r) (.start r) := ⟨rfl, rfl, .nil⟩

theorem Loc.Rel.step {l : Loc α} {m : Loc β} (h : Loc.Rel R l m) {s : Seg α} {t : Seg β}
    (hst : Seg.Rel R s t) : Loc.Rel R (l.step s) (m.step t) := by
  cases hst with
  | name hab => exact ⟨h.rooted, h.ups, List.rel_append h.names (.cons hab .nil)⟩
  | up =>
    have hlen := h.names.length_eq
    refine ⟨h.rooted, ?_, ?_⟩
    · show (if l.rooted then l.ups else l.ups + (1 - l.names.length)) =
        if m.rooted then m.ups else m.ups + (1 - m.names.length)
      rw [h.rooted, h.ups, hlen]
    · show List.Forall₂ R (l.names.take (l.names.length - 1)) (m.names.take (m.names.length - 1))
      rw [hlen]
      exact List.forall₂_take _ h.names

/-- **Walks along related segments lead to related locations.** -/
theorem Loc.Rel.walk {l : Loc α} {m : Loc β} (h : Loc.Rel R l m) {s : List (Seg α)}
    {t : List (Seg β)} (hst : List.Forall₂ (Seg.Rel R) s t) : Loc.Rel R (l.walk s) (m.walk t) := by
  induction hst generalizing l m with
  | nil => exact h
  | cons hhead _ ih => exact ih (h.step hhead)

end Rel

end LexPath
