import Rs5cmd.Storage.Fs
import Mathlib.Data.List.Nodup

/-!
# Directory trees

The files and directories below a directory, without links. Removing a directory
succeeds only if the path ends in a name, every directory on the way is there, and
nothing is in it.
-/

namespace Rs5cmd

open LexPath

/-! ## Trees -/

/-- The files and directories below a directory, each with the names that lead to it. -/
structure DirTree where
  entries : List (List Name × FileKind)
  once : (entries.map Prod.fst).Nodup
  kinds : ∀ e ∈ entries, e.2 = .file ∨ e.2 = .dir
  closed : ∀ e ∈ entries, ∀ v ∈ e.1.inits, v ≠ [] → v ≠ e.1 → (v, .dir) ∈ entries

theorem DirTree.unique (tree : DirTree) {w : List Name} {k k' : FileKind}
    (h : (w, k) ∈ tree.entries) (h' : (w, k') ∈ tree.entries) : k = k' :=
  (Prod.mk.inj (List.inj_on_of_nodup_map tree.once h h' rfl)).2

/-- Nothing lies below a file. -/
theorem DirTree.leaf (tree : DirTree) {v w : List Name} {k : FileKind} (hv : (v, .file) ∈ tree.entries)
    (hw : (w, k) ∈ tree.entries) (hne : v ≠ []) (hpre : v <+: w) : v = w := by
  by_contra hvw
  have hdir := tree.closed _ hw v ((List.mem_inits _ _).mpr hpre) hne hvw
  cases tree.unique hv hdir

namespace DirTree

/-- The top is a directory, and so are the entries that are. -/
def IsDir (tree : DirTree) (w : List Name) : Prop := w = [] ∨ (w, .dir) ∈ tree.entries

instance (tree : DirTree) (w : List Name) : Decidable (tree.IsDir w) :=
  inferInstanceAs (Decidable (_ ∨ _))

/-- A directory with nothing in it. -/
def IsEmptyDir (tree : DirTree) (w : List Name) : Prop :=
  tree.IsDir w ∧ ∀ e ∈ tree.entries, w <+: e.1 → e.1 = w

instance (tree : DirTree) (w : List Name) : Decidable (tree.IsEmptyDir w) :=
  inferInstanceAs (Decidable (_ ∧ _))

end DirTree

/-! ## Paths by component -/

/-- `std::path::Component`: `ParentDir` and `Normal` are the moves of a path. -/
inductive PathComp where
  | rootDir
  | curDir
  | seg (s : Seg Name)
  deriving DecidableEq, Repr

/-- `Path::components`, the last one first: a `.` counts only at the start. -/
def components (p : Str) : List PathComp :=
  (segsOf p).reverse.map PathComp.seg ++
    if Str.startsWith ['/'] p then [.rootDir]
    else if (Str.split '/' p).head? = some dot then [.curDir]
    else []

/-- `Path::parent`. -/
def pathParent : List PathComp → Option (List PathComp)
  | [] => none
  | .rootDir :: _ => none
  | _ :: up => some up

/-- Where a path leads from the working directory, as names below the root. -/
def locate (cwd : List Name) : List PathComp → List Name
  | [] => cwd
  | .rootDir :: _ => []
  | .curDir :: up => locate cwd up
  | .seg (.name n) :: up => locate cwd up ++ [n]
  | .seg .up :: up => (locate cwd up).dropLast

/-- The path leads through directories only. -/
def DirTree.reaches (tree : DirTree) (cwd : List Name) : List PathComp → Bool
  | [] => tree.IsDir cwd
  | .rootDir :: _ => true
  | c :: up => tree.reaches cwd up && tree.IsDir (locate cwd (c :: up))

/-- Whether `std::fs::remove_dir` succeeds: the system refuses a path that ends in
`..`, and one that does not lead through directories. -/
def DirTree.removes (tree : DirTree) (cwd : List Name) : List PathComp → Bool
  | .seg (.name n) :: up =>
    tree.reaches cwd up && tree.IsEmptyDir (locate cwd (.seg (.name n) :: up))
  | _ => false

/-! ## Paths and locations -/

section Locate

variable {cwd : List Name}

/-- Where a lexical location lies: a relative one starts from the working directory. -/
def place (cwd : List Name) (l : Loc Name) : List Name :=
  if l.rooted then l.names else cwd.take (cwd.length - l.ups) ++ l.names

theorem place_descend (l : Loc Name) (w : List Name) : place cwd (l.descend w) = place cwd l ++ w := by
  unfold place
  rw [Loc.descend_rooted, Loc.descend_ups, Loc.descend_names]
  split
  · rfl
  · rw [List.append_assoc]

/-- Climbing goes to the parent, which the root is its own. -/
theorem place_climb_one (l : Loc Name) : place cwd (l.climb 1) = (place cwd l).dropLast := by
  unfold place
  rw [Loc.climb_rooted]
  split
  · exact List.dropLast_eq_take.symm
  · rename_i hrel
    have hups : (l.climb 1).ups = l.ups + (1 - l.names.length) := if_neg hrel
    have hnames : (l.climb 1).names = l.names.dropLast := List.dropLast_eq_take.symm
    rw [hups, hnames]
    by_cases hnil : l.names = []
    · rw [hnil, List.length_nil, List.dropLast_nil, List.append_nil, List.append_nil,
        List.dropLast_eq_take, List.take_take, List.length_take]
      congr 1
      omega
    · have hlen := List.length_pos_of_ne_nil hnil
      rw [List.dropLast_append_of_ne_nil hnil, show 1 - l.names.length = 0 by omega, Nat.add_zero]

theorem locate_moves (segs : List (Seg Name)) (l : Loc Name) {base : List PathComp}
    (hbase : locate cwd base = place cwd l) :
    locate cwd (segs.reverse.map .seg ++ base) = place cwd (l.walk segs) := by
  induction segs using List.reverseRecOn with
  | nil => exact hbase
  | append_singleton segs s ih =>
    rw [List.reverse_append, List.reverse_singleton, List.singleton_append, List.map_cons,
      List.cons_append, Loc.walk_append, Loc.walk_cons, Loc.walk_nil]
    cases s with
    | name n => rw [locate, ih, Loc.step, place_descend]
    | up => rw [locate, ih, Loc.step, place_climb_one]

/-- **A path leads where it says**: to its lexical location. -/
theorem locate_components (p : Str) : locate cwd (components p) = place cwd (locOf p) := by
  refine locate_moves (segsOf p) _ ?_
  split
  · rename_i hroot
    rw [hroot]
    rfl
  · rename_i hroot
    have hstart : place cwd (Loc.start (Str.startsWith ['/'] p)) = cwd := by
      rw [Bool.eq_false_iff.mpr hroot, place, if_neg (by simp [Loc.start])]
      simp [Loc.start]
    rw [hstart]
    split <;> rfl

/-- What lies inside in the spelling lies inside. -/
theorem place_of_inside {b l : Loc Name} (h : Inside b l) :
    ∃ w, l.names = b.names ++ w ∧ place cwd l = place cwd b ++ w := by
  obtain ⟨w, rfl⟩ := inside_iff_descend.mp h
  exact ⟨w, rfl, place_descend b w⟩

/-- The parent of a path lies no lower than one level above it. -/
theorem dropLast_locate_prefix {path up : List PathComp} (h : pathParent path = some up) :
    (locate cwd path).dropLast <+: locate cwd up := by
  match path, h with
  | .curDir :: _, rfl => exact List.dropLast_prefix _
  | .seg (.name n) :: _, rfl =>
    rw [locate, List.dropLast_concat]
  | .seg .up :: _, rfl =>
    rw [locate]
    exact (List.dropLast_prefix _).trans (List.dropLast_prefix _)

end Locate

/-! ## What removing a directory needs -/

section Removes

variable {tree : DirTree} {cwd : List Name} {path : List PathComp}

theorem DirTree.removes_eq_true (h : tree.removes cwd path = true) :
    tree.IsEmptyDir (locate cwd path) ∧
      ∃ n up, path = .seg (.name n) :: up ∧ locate cwd path = locate cwd up ++ [n] := by
  match path, h with
  | .seg (.name n) :: up, h =>
    rw [DirTree.removes, Bool.and_eq_true, decide_eq_true_eq] at h
    exact ⟨h.2, n, up, rfl, rfl⟩

end Removes

end Rs5cmd
