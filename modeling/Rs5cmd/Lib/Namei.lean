import Rs5cmd.Lib.Follow
import Rs5cmd.Lib.LexPath

/-!
# Opening a path

An operating system goes down a path entry by entry and takes up every link it meets, the
ones among the directories too. Read lexically, a path names a location at once, and only
what is found there may be a link. The two come to one entry when no directory on the way
is a link (`namei_eq_follow`).
-/

namespace LexPath

universe u

variable {α : Type u}

/-- Where a link leads: a path from the root, or from the directory the link is in. -/
structure Target (α : Type u) where
  rooted : Bool
  segs : List (Seg α)

def Target.start (t : Target α) (dir : Loc α) : Loc α := if t.rooted then .start true else dir

section Open

variable (link : Loc α → Option (Target α))

/-- The first link on the way down a path: its directory, its target and what is left of
the path. A climb leads to a directory that is known not to be one. -/
def firstLink : Loc α → List (Seg α) → Option (Loc α × Target α × List (Seg α))
  | _, [] => none
  | l, .up :: s => firstLink (l.climb 1) s
  | l, .name a :: s =>
    match link (l.descend [a]) with
    | some t => some (l, t, s)
    | none => firstLink (l.descend [a]) s

/-- The entry that opening a path ends at, after at most `n` links. -/
def namei : Nat → Loc α → List (Seg α) → Option (Loc α)
  | 0, l, s =>
    match firstLink link l s with
    | none => some (l.walk s)
    | some _ => none
  | n + 1, l, s =>
    match firstLink link l s with
    | none => some (l.walk s)
    | some (dir, t, rest) => namei n (t.start dir) (t.segs ++ rest)

/-- The entry that is made or removed at a path, whose last name is not followed. -/
def entryAt (n : Nat) (l : Loc α) (s : List (Seg α)) : Option (Loc α) :=
  match s.getLast? with
  | some (.name a) => (namei link n l s.dropLast).map fun dir => dir.descend [a]
  | _ => none

/-- The location that a link at `l` names, read lexically. -/
def linked (l : Loc α) : Option (Loc α) :=
  (link l).map fun t => (t.start (l.climb 1)).walk t.segs

/-- The directories on the way down a path. -/
def passed : Loc α → List (Seg α) → List (Loc α)
  | l, [] => [l]
  | l, .up :: s => l :: passed (l.climb 1) s
  | l, .name a :: s => l :: if s.isEmpty then [] else passed (l.descend [a]) s

/-- The directories on the way to the end of a path, those on the way to the targets of
the links included. -/
def passedBy : Nat → Loc α → List (Seg α) → List (Loc α)
  | 0, l, s => passed l s
  | n + 1, l, s => passed l s ++
    match link (l.walk s) with
    | some t => passedBy n (t.start ((l.walk s).climb 1)) t.segs
    | none => []

end Open

section Lexical

variable {link link' : Loc α → Option (Target α)} {n : Nat} {l : Loc α} {s : List (Seg α)}

theorem mem_passed_self (l : Loc α) (s : List (Seg α)) : l ∈ passed l s := by
  cases s with
  | nil => exact List.mem_singleton_self l
  | cons x s => cases x <;> exact List.mem_cons_self

theorem passed_subset_passedBy (link : Loc α → Option (Target α)) (n : Nat) (l : Loc α)
    (s : List (Seg α)) : passed l s ⊆ passedBy link n l s := by
  cases n with
  | zero => exact List.Subset.refl _
  | succ n => exact List.subset_append_left _ _

/-- If no directory on the way is a link, the first link is what the path leads to. -/
theorem firstLink_of_passed (h : ∀ x ∈ passed l s, link x = none) :
    firstLink link l s = (link (l.walk s)).map fun t => ((l.walk s).climb 1, t, []) := by
  induction s generalizing l with
  | nil => rw [firstLink, Loc.walk_nil, h l (mem_passed_self l []), Option.map_none]
  | cons x s ih =>
    cases x with
    | up =>
      rw [firstLink, Loc.walk_cons, Loc.step]
      exact ih fun y hy => h y (List.mem_cons_of_mem l hy)
    | name a =>
      rw [firstLink, Loc.walk_cons, Loc.step]
      cases s with
      | nil =>
        rw [Loc.walk_nil, Loc.climb_one_descend (by simp), List.dropLast_singleton,
          Loc.descend_nil]
        cases link (l.descend [a]) <;> rfl
      | cons y s =>
        have hrest : ∀ z ∈ passed (l.descend [a]) (y :: s), link z = none :=
          fun z hz => h z (List.mem_cons_of_mem l hz)
        rw [hrest _ (mem_passed_self _ _)]
        exact ih hrest

/-- A path whose directories are no links opens where it leads lexically. -/
theorem namei_eq_follow (h : ∀ x ∈ passedBy link n l s, link x = none) :
    namei link n l s = Follow.follow (linked link) n (l.walk s) := by
  have hfirst := firstLink_of_passed fun x hx => h x (passed_subset_passedBy link n l s hx)
  induction n generalizing l s with
  | zero =>
    rw [namei, Follow.follow, hfirst, linked]
    cases link (l.walk s) <;> rfl
  | succ n ih =>
    rw [namei, Follow.follow, hfirst, linked]
    cases ht : link (l.walk s) with
    | none => rfl
    | some t =>
      have hrest : ∀ x ∈ passedBy link n (t.start ((l.walk s).climb 1)) t.segs, link x = none := by
        intro x hx
        refine h x (List.mem_append_right _ ?_)
        rw [ht]
        exact hx
      simp only [Option.map_some, List.append_nil]
      exact ih hrest (firstLink_of_passed fun x hx =>
        hrest x (passed_subset_passedBy link n _ _ hx))

/-- The directories on the way depend on the links that are followed only. -/
theorem passedBy_congr (h : ∀ x ∈ Follow.chain (linked link) n (l.walk s), link' x = link x) :
    passedBy link' n l s = passedBy link n l s := by
  induction n generalizing l s with
  | zero => rfl
  | succ n ih =>
    rw [passedBy, passedBy, h _ (Follow.mem_chain_self _ _ _)]
    cases ht : link (l.walk s) with
    | none => rfl
    | some t =>
      have hrest := ih (l := t.start ((l.walk s).climb 1)) (s := t.segs) ?_
      · simp only [hrest]
      · intro x hx
        refine h x ?_
        rw [Follow.chain, linked, ht]
        exact List.mem_cons_of_mem _ hx

/-- The directories of a path that leads to no link. -/
theorem passedBy_of_none (h : link (l.walk s) = none) : passedBy link n l s = passed l s := by
  cases n with
  | zero => rfl
  | succ n => rw [passedBy, h, List.append_nil]

/-- An entry is made or removed where the path leads lexically. -/
theorem entryAt_of_passed {a : α} (h : ∀ x ∈ passed l (s ++ [.name a]), link x = none) :
    entryAt link n l (s ++ [.name a]) = some (l.walk (s ++ [.name a])) := by
  have hpassed : ∀ (l : Loc α) (s : List (Seg α)), l.walk s ∈ passed l (s ++ [.name a]) ∧
      passed l s ⊆ passed l (s ++ [.name a]) := by
    intro l s
    induction s generalizing l with
    | nil => exact ⟨mem_passed_self l _, fun x hx => hx⟩
    | cons y s ih =>
      cases y with
      | up =>
        exact ⟨List.mem_cons_of_mem _ (ih (l.climb 1)).1, List.cons_subset_cons _ (ih _).2⟩
      | name b =>
        have hne : (s ++ [Seg.name a]).isEmpty = false := by simp
        simp only [List.cons_append, passed, hne, Bool.false_eq_true, if_false]
        refine ⟨List.mem_cons_of_mem _ (ih (l.descend [b])).1, List.cons_subset_cons _ ?_⟩
        split
        · exact List.nil_subset _
        · exact (ih _).2
  have hend := h _ (hpassed l s).1
  have hfirst : firstLink link l s = none := by
    rw [firstLink_of_passed fun x hx => h x ((hpassed l s).2 hx), hend, Option.map_none]
  have hopen : namei link n l s = some (l.walk s) := by
    cases n <;> rw [namei, hfirst]
  rw [entryAt, List.getLast?_concat]
  simp only [List.dropLast_concat, hopen, Option.map_some]
  rw [Loc.walk_append]
  rfl

end Lexical

end LexPath
