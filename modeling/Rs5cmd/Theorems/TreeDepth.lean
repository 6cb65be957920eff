import Rs5cmd.Command.Tree

/-!
# The tree cut by `--depth` and the tree printed in full

`tree --depth` shortens the keys and builds a tree from what is left of them; the
other way is to build the whole tree and print its first levels. A key that was
shortened no longer says that its last level is a directory, and an empty segment
counts as a level when keys are shortened but not in the tree. Where the other keys
make up for both, the two ways agree.
-/

namespace Rs5cmd

namespace TreeNode

/-! ## What is printed -/

/-- The tree as it is printed: the names with the sizes shown next to them. -/
def shown (showSize : Bool) : Children → Forest Str (Option Int)
  | .nil => .nil
  | .cons name child children rest =>
    .cons name (if !(child.isDir || !children.isEmpty) && showSize then child.size else none)
      (shown showSize children) (shown showSize rest)

/-- The lines of a printed tree. -/
def lines : Forest Str (Option Int) → Str → List Str
  | .nil, _ => []
  | .cons name size below rest, indent =>
    (indent ++ (if rest.isEmpty then "└── " else "├── ").toList ++ name ++
        (size.map fun sz => " (".toList ++ (toString sz).toList ++ ")".toList).getD []) ::
      (lines below (indent ++ (if rest.isEmpty then "    " else "│   ").toList) ++ lines rest indent)

theorem isEmpty_shown (showSize : Bool) (root : Children) :
    (shown showSize root).isEmpty = root.isEmpty := by
  cases root with
  | nil => rfl
  | cons name child children rest => rfl

theorem format_eq (name : Str) (node : TreeNode) (children : Children) (showSize : Bool) :
    format name node children showSize =
      name ++ ((if !(node.isDir || !children.isEmpty) && showSize then node.size else none).map
        fun sz => " (".toList ++ (toString sz).toList ++ ")".toList).getD [] := by
  simp only [format]
  split
  · cases node.size with
    | none => exact (List.append_nil name).symm
    | some sz => simp only [Option.map_some, Option.getD_some, List.append_assoc]
  · exact (List.append_nil name).symm

/-- **The printed lines are those of the names and sizes shown.** -/
theorem printChildren_eq (showSize : Bool) (root : Children) (indent : Str) :
    printChildren showSize root indent = lines (shown showSize root) indent := by
  induction root generalizing indent with
  | nil => rfl
  | cons name child children rest ihChildren ihRest =>
    simp only [printChildren, shown, lines]
    rw [isEmpty_shown, ihChildren, ihRest, format_eq, List.append_assoc]
    simp only [List.append_assoc]

/-! ## A tree from a list of paths -/

/-- One call of `insert`. -/
structure Insertion where
  path : List Str
  size : Option Int
  dir : Bool

def build (l : List Insertion) : Children :=
  l.foldl (fun root e => root.graft {} (mark e.size e.dir) e.path) .nil

/-- Something was put in at the path or below it. -/
def Reached (l : List Insertion) (q : List Str) : Prop := ∃ e ∈ l, q <+: e.path

/-- Something was put in below the path, or a directory at it. -/
def DirAt (l : List Insertion) (q : List Str) : Prop :=
  ∃ e ∈ l, q <+: e.path ∧ (q ≠ e.path ∨ e.dir = true)

instance (l : List Insertion) (q : List Str) : Decidable (Reached l q) :=
  inferInstanceAs (Decidable (∃ e ∈ l, q <+: e.path))

instance (l : List Insertion) (q : List Str) : Decidable (DirAt l q) :=
  inferInstanceAs (Decidable (∃ e ∈ l, q <+: e.path ∧ (q ≠ e.path ∨ e.dir = true)))

/-- The size of the last file that was put in at the path. -/
def lastSize (l : List Insertion) (q : List Str) : Option Int :=
  ((l.filter fun e => e.path = q ∧ e.dir = false).getLast?).bind Insertion.size

theorem build_concat (l : List Insertion) (e : Insertion) :
    build (l ++ [e]) = (build l).graft {} (mark e.size e.dir) e.path := by
  rw [build, List.foldl_concat]
  rfl

theorem sorted_build (l : List Insertion) : (build l).Sorted := by
  induction l using List.reverseRecOn with
  | nil => exact .nil
  | append_singleton l e ih =>
    rw [build_concat]
    exact ih.graft _ _ _

theorem reached_concat {l : List Insertion} {e : Insertion} {q : List Str} :
    Reached (l ++ [e]) q ↔ Reached l q ∨ q <+: e.path := by
  simp only [Reached, List.mem_append, List.mem_singleton]
  constructor
  · rintro ⟨e', he' | rfl, hq⟩
    · exact Or.inl ⟨e', he', hq⟩
    · exact Or.inr hq
  · rintro (⟨e', he', hq⟩ | hq)
    · exact ⟨e', Or.inl he', hq⟩
    · exact ⟨e, Or.inr rfl, hq⟩

theorem dirAt_concat {l : List Insertion} {e : Insertion} {q : List Str} :
    DirAt (l ++ [e]) q ↔ DirAt l q ∨ (q <+: e.path ∧ (q ≠ e.path ∨ e.dir = true)) := by
  simp only [DirAt, List.mem_append, List.mem_singleton]
  constructor
  · rintro ⟨e', he' | rfl, hq⟩
    · exact Or.inl ⟨e', he', hq⟩
    · exact Or.inr hq
  · rintro (⟨e', he', hq⟩ | hq)
    · exact ⟨e', Or.inl he', hq⟩
    · exact ⟨e, Or.inr rfl, hq⟩

theorem lastSize_concat (l : List Insertion) (e : Insertion) (q : List Str) :
    lastSize (l ++ [e]) q = if e.path = q ∧ e.dir = false then e.size else lastSize l q := by
  rw [lastSize, List.filter_append]
  by_cases h : e.path = q ∧ e.dir = false
  · simp [h]
  · simp [h, lastSize]

/-- The node a tree has at a path. -/
def nodeAt (l : List Insertion) (q : List Str) : Option TreeNode :=
  if q ≠ [] ∧ Reached l q then some ⟨lastSize l q, decide (DirAt l q)⟩ else none

theorem lastSize_eq_none {l : List Insertion} {q : List Str} (h : ¬ Reached l q) :
    lastSize l q = none := by
  have hnil : (l.filter fun e => e.path = q ∧ e.dir = false) = [] := by
    rw [List.filter_eq_nil_iff]
    intro e he hpath
    have hpath : e.path = q ∧ e.dir = false := of_decide_eq_true hpath
    exact h ⟨e, he, by rw [hpath.1]⟩
  rw [lastSize, hnil]
  rfl

theorem DirAt.reached {l : List Insertion} {q : List Str} (h : DirAt l q) : Reached l q := by
  obtain ⟨e, he, hq, -⟩ := h
  exact ⟨e, he, hq⟩

/-- The node before an insertion reaches it, a new one if there was none. -/
theorem getD_nodeAt (l : List Insertion) {q : List Str} (hq : q ≠ []) :
    (nodeAt l q).getD {} = ⟨lastSize l q, decide (DirAt l q)⟩ := by
  by_cases h : Reached l q
  · rw [nodeAt, if_pos ⟨hq, h⟩]
    rfl
  · rw [nodeAt, if_neg fun hr => h hr.2, lastSize_eq_none h,
      decide_eq_false fun hd => h (DirAt.reached hd)]
    rfl

/-- **The nodes of a tree, by the list of what was put in.** -/
theorem value?_build (l : List Insertion) (q : List Str) : (build l).value? q = nodeAt l q := by
  by_cases hq : q = []
  · simp [nodeAt, hq]
  induction l using List.reverseRecOn with
  | nil => simp [build, Forest.value?, nodeAt, Reached]
  | append_singleton l e ih =>
    rw [build_concat]
    by_cases hpath : q <+: e.path
    · have hnode : nodeAt (l ++ [e]) q =
          some ⟨lastSize (l ++ [e]) q, decide (DirAt (l ++ [e]) q)⟩ :=
        if_pos ⟨hq, reached_concat.mpr (Or.inr hpath)⟩
      obtain ⟨left, hleft⟩ := hpath
      rw [hnode, lastSize_concat]
      simp only [dirAt_concat]
      rw [← hleft, (sorted_build l).value?_graft_append hq, ih, getD_nodeAt l hq, mark]
      by_cases hnil : left = []
      · -- the path ends here
        cases hdir : e.dir with
        | true => simp [hnil]
        | false => simp [hnil]
      · have hne : q ≠ q ++ left := fun heq => hnil (List.self_eq_append_right.mp heq)
        simp [hnil, hne.symm]
    · have hne : e.path ≠ q := by
        rintro rfl
        exact hpath List.prefix_rfl
      rw [(sorted_build l).value?_graft_of_apart hpath, ih]
      simp only [nodeAt, reached_concat, dirAt_concat, lastSize_concat]
      simp [hpath, hne]

/-! ## Directories are marked -/

/-- Every node with children is marked as a directory. -/
def Marked : Children → Prop
  | .nil => True
  | .cons _ child children rest =>
    (children.isEmpty = false → child.isDir = true) ∧ Marked children ∧ Marked rest

theorem isDir_mark {left : List Str} {node : TreeNode} (size : Option Int) (dir : Bool)
    (h : left ≠ [] ∨ node.isDir = true) : (mark size dir left node).isDir = true := by
  unfold mark
  split
  · rename_i hnil
    have hdir := h.resolve_left fun hne => hne hnil
    split
    · rfl
    · exact hdir
  · rfl

theorem marked_spine (size : Option Int) (dir : Bool) (path : List Str) :
    Marked (Forest.spine {} (mark size dir) path) := by
  induction path with
  | nil => trivial
  | cons p ps ih =>
    refine ⟨fun hbelow => isDir_mark size dir (Or.inl ?_), ih, trivial⟩
    rintro rfl
    cases hbelow

theorem Marked.graft {root : Children} (h : Marked root) (size : Option Int) (dir : Bool)
    (path : List Str) : Marked (root.graft {} (mark size dir) path) := by
  induction root generalizing path with
  | nil => exact marked_spine size dir path
  | cons name child children rest ihChildren ihRest =>
    obtain ⟨hdir, hchildren, hrest⟩ := h
    cases path with
    | nil => exact ⟨hdir, hchildren, hrest⟩
    | cons p ps =>
      rw [Forest.graft]
      split
      · obtain ⟨hfirst, hspine, -⟩ := marked_spine size dir (p :: ps)
        exact ⟨hfirst, hspine, hdir, hchildren, hrest⟩
      · split
        · refine ⟨fun hbelow => isDir_mark size dir ?_, ihChildren hchildren ps, hrest⟩
          by_cases hps : ps = []
          · -- nothing was put in below
            have hsame : children.graft {} (mark size dir) [] = children := by
              cases children with
              | nil => rfl
              | cons _ _ _ _ => rfl
            rw [hps, hsame] at hbelow
            exact Or.inr (hdir hbelow)
          · exact Or.inl hps
        · exact ⟨hdir, hchildren, ihRest hrest (p :: ps)⟩

theorem marked_build (l : List Insertion) : Marked (build l) := by
  induction l using List.reverseRecOn with
  | nil => trivial
  | append_singleton l e ih =>
    rw [build_concat]
    exact ih.graft _ _ _

/-- The size shown next to a node. -/
def shownSize (showSize : Bool) (node : TreeNode) : Option Int :=
  if !node.isDir && showSize then node.size else none

theorem Marked.shown_eq {root : Children} (h : Marked root) (showSize : Bool) :
    shown showSize root = root.map (shownSize showSize) := by
  induction root with
  | nil => rfl
  | cons name child children rest ihChildren ihRest =>
    obtain ⟨hdir, hchildren, hrest⟩ := h
    rw [shown, Forest.map, ihChildren hchildren, ihRest hrest, shownSize]
    cases hempty : children.isEmpty with
    | true => simp
    | false => simp [hdir hempty]

theorem value?_shown (showSize : Bool) (l : List Insertion) (q : List Str) :
    (shown showSize (build l)).value? q = (nodeAt l q).map (shownSize showSize) := by
  rw [(marked_build l).shown_eq, Forest.value?_map, value?_build]

theorem sorted_shown (showSize : Bool) (l : List Insertion) :
    (shown showSize (build l)).Sorted := by
  rw [(marked_build l).shown_eq]
  exact (sorted_build l).map _

/-- One printed tree is the start of another if its nodes are. -/
theorem shown_eq_cut_iff (showSize : Bool) (l l' : List Insertion) (d : Nat) :
    shown showSize (build l') = (shown showSize (build l)).cut d ↔
      ∀ q, (nodeAt l' q).map (shownSize showSize) =
        if q.length ≤ d then (nodeAt l q).map (shownSize showSize) else none := by
  constructor
  · intro h q
    rw [← value?_shown, h, Forest.value?_cut, value?_shown]
  · intro h
    refine (sorted_shown showSize l').ext ((sorted_shown showSize l).cut d) fun q => ?_
    rw [value?_shown, Forest.value?_cut, value?_shown]
    exact h q

end TreeNode

open TreeNode

/-! ## Listed keys -/

/-- The levels of a key. -/
def Object.levels (obj : Object) : List Str := TreeNode.filled (Str.split '/' obj.treeKey)

/-- The levels of a key that are left when it has been shortened. -/
def Object.levelsWithin (d : Nat) (obj : Object) : List Str :=
  TreeNode.filled ((Str.split '/' obj.treeKey).take d)

/-- The insertion made for an object. -/
def Object.insertion (levels : Object → List Str) (obj : Object) : Insertion where
  path := levels obj
  size := if obj.isTreeDir then none else some obj.size
  dir := obj.isTreeDir

/-- The size of the last file listed among those with these levels. -/
def lastListed (levels : Object → List Str) (objs : List Object) (q : List Str) : Option Int :=
  ((objs.filter fun o => levels o = q ∧ o.isTreeDir = false).getLast?).map Object.size

/-- The tree that is printed, if the listing does not fail. -/
def TreeArgs.printed (args : TreeArgs) (objs : List Object) :
    Except StorageError (Forest Str (Option Int)) :=
  (args.collect objs .nil 0).map (TreeNode.shown args.size)

theorem TreeArgs.run_eq (args : TreeArgs) (displayUrl : Str) (objs : List Object) :
    args.run displayUrl objs = (args.printed objs).map fun tree => displayUrl :: lines tree [] := by
  rw [run, printed]
  cases args.collect objs .nil 0 with
  | error e => rfl
  | ok root =>
    simp only [Except.map, printChildren_eq]

/-- The keys go through the path. -/
def Through (levels : Object → List Str) (objs : List Object) (q : List Str) : Prop :=
  ∃ o ∈ objs, q <+: levels o

/-- A key shows that there is a directory at the path: it goes on below it, or it is a
directory's. -/
def ShowsDir (levels : Object → List Str) (objs : List Object) (q : List Str) : Prop :=
  ∃ o ∈ objs, q <+: levels o ∧ (q ≠ levels o ∨ o.isTreeDir = true)

instance (levels : Object → List Str) (objs : List Object) (q : List Str) :
    Decidable (Through levels objs q) := inferInstanceAs (Decidable (∃ o ∈ objs, _))

instance (levels : Object → List Str) (objs : List Object) (q : List Str) :
    Decidable (ShowsDir levels objs q) := inferInstanceAs (Decidable (∃ o ∈ objs, _))

/-- What is lost when a key is shortened to `d` segments is known from another key. -/
structure MadeUpFor (showSize : Bool) (d : Nat) (objs : List Object) : Prop where
  /-- The first levels of each key are levels of a shortened key. -/
  levels : ∀ o ∈ objs, Through (Object.levelsWithin d) objs (o.levels.take d)
  /-- Where sizes are shown, a key with more levels and the key of a directory have a
  shortened key that shows the directory. -/
  dirs : showSize = true → ∀ o ∈ objs, o.levels ≠ [] →
    (d < o.levels.length ∨ o.isTreeDir = true) →
      ShowsDir (Object.levelsWithin d) objs (o.levels.take d)
  /-- Where sizes are shown, of the files at a path the last one is as large as the last
  one that is still there after shortening. -/
  sizes : showSize = true → ∀ o ∈ objs, o.levels ≠ [] → o.levels.length ≤ d →
    ¬ ShowsDir Object.levels objs o.levels →
      lastListed (Object.levelsWithin d) objs o.levels = lastListed Object.levels objs o.levels

namespace Object

variable {objs : List Object} {d : Nat} {q : List Str} {levels : Object → List Str}

theorem levelsWithin_prefix (d : Nat) (obj : Object) : obj.levelsWithin d <+: obj.levels :=
  (List.take_prefix d _).filter _

theorem length_levelsWithin_le (d : Nat) (obj : Object) : (obj.levelsWithin d).length ≤ d :=
  (List.length_filter_le _ _).trans (List.length_take_le d _)

theorem reached_iff :
    Reached (objs.map (insertion levels)) q ↔ ∃ o ∈ objs, q <+: levels o := by
  simp [Reached, insertion]

theorem dirAt_iff : DirAt (objs.map (insertion levels)) q ↔
    ∃ o ∈ objs, q <+: levels o ∧ (q ≠ levels o ∨ o.isTreeDir = true) := by
  simp [DirAt, insertion]

theorem lastSize_eq : lastSize (objs.map (insertion levels)) q = lastListed levels objs q := by
  rw [lastSize, List.filter_map, List.getLast?_map, lastListed]
  show (Option.map (insertion levels)
      (objs.filter fun o => levels o = q ∧ o.isTreeDir = false).getLast?).bind Insertion.size = _
  cases hlast : (objs.filter fun o => levels o = q ∧ o.isTreeDir = false).getLast? with
  | none => rfl
  | some o =>
    have hfile : levels o = q ∧ o.isTreeDir = false :=
      of_decide_eq_true (List.mem_filter.mp (List.mem_of_getLast? hlast)).2
    simp [insertion, hfile.2]

theorem isSome_lastListed {o : Object} (ho : o ∈ objs) (hq : levels o = q)
    (hfile : o.isTreeDir = false) : (lastListed levels objs q).isSome = true := by
  have hmem : o ∈ objs.filter fun o => levels o = q ∧ o.isTreeDir = false :=
    List.mem_filter.mpr ⟨ho, decide_eq_true ⟨hq, hfile⟩⟩
  rw [lastListed, Option.isSome_map]
  exact List.getLast?_isSome.mpr (List.ne_nil_of_mem hmem)

/-- The size shown at a path, if there is a node. -/
theorem shownSize_nodeAt (showSize : Bool) (hq : q ≠ []) :
    (nodeAt (objs.map (insertion levels)) q).map (shownSize showSize) =
      if Through levels objs q then
        some (if ShowsDir levels objs q ∨ showSize = false then none else lastListed levels objs q)
      else none := by
  have hdec : decide (DirAt (objs.map (insertion levels)) q) = decide (ShowsDir levels objs q) :=
    decide_eq_decide.mpr dirAt_iff
  rw [nodeAt, lastSize_eq, hdec]
  by_cases hthrough : Through levels objs q
  · rw [if_pos ⟨hq, reached_iff.mpr hthrough⟩, if_pos hthrough, Option.map_some, shownSize]
    by_cases hdir : ShowsDir levels objs q
    · simp [hdir]
    · cases showSize with
      | true => simp [hdir]
      | false => simp
  · rw [if_neg fun h => hthrough (reached_iff.mp h.2), if_neg hthrough]
    rfl

end Object

/-! ## The loop over the listing -/

theorem TreeArgs.collect_eq {args : TreeArgs} (hlimit : args.limit = none)
    (hdepth : args.depth ≠ some 0) (objs : List Object) (hok : ∀ o ∈ objs, o.err = none)
    (root : Children) (collected : Nat) :
    args.collect objs root collected = .ok (objs.foldl (fun root obj =>
      TreeNode.insert root (args.segments obj.treeKey)
        (if obj.isTreeDir then none else some obj.size) obj.isTreeDir) root) := by
  induction objs generalizing root collected with
  | nil => rfl
  | cons obj objs ih =>
    have hrest := fun o ho => hok o (List.mem_cons_of_mem obj ho)
    rw [collect, hok obj List.mem_cons_self, List.foldl_cons]
    simp only [hlimit, Option.any_none, Bool.false_eq_true, if_false, if_neg hdepth, ih hrest,
      ite_self]
    split
    · -- an empty key has no levels
      rename_i hkey
      have hsame : TreeNode.insert root (args.segments obj.treeKey)
          (if obj.isTreeDir then none else some obj.size) obj.isTreeDir = root := by
        have hnone : TreeNode.filled (args.segments obj.treeKey) = [] := by
          have hsplit : Str.split '/' [] = [[]] := by decide
          rw [hkey, segments, hsplit]
          cases args.depth with
          | none => rfl
          | some d =>
            cases d with
            | zero => rfl
            | succ d => simp [TreeNode.filled]
        rw [TreeNode.insert, hnone]
        cases root with
        | nil => rfl
        | cons _ _ _ _ => rfl
      rw [hsame]
    · rfl

theorem TreeArgs.printed_eq {args : TreeArgs} (hlimit : args.limit = none)
    (hdepth : args.depth ≠ some 0) {objs : List Object} (hok : ∀ o ∈ objs, o.err = none)
    {levels : Object → List Str} (hlevels : ∀ o, levels o = TreeNode.filled (args.segments o.treeKey)) :
    args.printed objs = .ok (TreeNode.shown args.size (build (objs.map (Object.insertion levels)))) := by
  rw [printed, collect_eq hlimit hdepth objs hok, build, List.foldl_map]
  simp only [Object.insertion, hlevels]
  rfl

/-! ## When shortening the keys is cutting the tree -/

section Agree

variable {showSize : Bool} {d : Nat} {objs : List Object} {q : List Str}
  {levels : Object → List Str}

theorem Through.of_within (h : Through (Object.levelsWithin d) objs q) :
    Through Object.levels objs q ∧ q.length ≤ d := by
  obtain ⟨o, ho, hq⟩ := h
  exact ⟨⟨o, ho, hq.trans (Object.levelsWithin_prefix d o)⟩,
    hq.length_le.trans (Object.length_levelsWithin_le d o)⟩

theorem ShowsDir.of_within (h : ShowsDir (Object.levelsWithin d) objs q) :
    ShowsDir Object.levels objs q := by
  obtain ⟨o, ho, hq, hdir⟩ := h
  refine ⟨o, ho, hq.trans (Object.levelsWithin_prefix d o), hdir.imp_left ?_⟩
  -- a path that a shortened key goes beyond is not the whole key
  rintro hne rfl
  exact hne (hq.eq_of_length_le (Object.levelsWithin_prefix d o).length_le)

/-- At a path where no key shows a directory, the keys through it end there. -/
theorem eq_of_not_showsDir (hdir : ¬ ShowsDir levels objs q) {o : Object} (ho : o ∈ objs)
    (hq : q <+: levels o) : q = levels o ∧ o.isTreeDir = false := by
  constructor
  · by_contra hne
    exact hdir ⟨o, ho, hq, Or.inl hne⟩
  · cases hd : o.isTreeDir with
    | false => rfl
    | true => exact absurd ⟨o, ho, hq, Or.inr hd⟩ hdir

/-- A file is shown with a size where the keys end. -/
theorem isSome_lastListed_of_not_showsDir (hthrough : Through levels objs q)
    (hdir : ¬ ShowsDir levels objs q) : (lastListed levels objs q).isSome = true := by
  obtain ⟨o, ho, hq⟩ := hthrough
  obtain ⟨heq, hfile⟩ := eq_of_not_showsDir hdir ho hq
  exact Object.isSome_lastListed ho heq.symm hfile

/-- The paths of a listing that makes up for what is lost are those of the shortened keys. -/
theorem MadeUpFor.through (h : MadeUpFor showSize d objs) (hlen : q.length ≤ d)
    (hthrough : Through Object.levels objs q) : Through (Object.levelsWithin d) objs q := by
  obtain ⟨o, ho, hq⟩ := hthrough
  obtain ⟨o', ho', hq'⟩ := h.levels o ho
  exact ⟨o', ho', (List.prefix_take_iff.mpr ⟨hq, hlen⟩).trans hq'⟩

theorem MadeUpFor.showsDir (h : MadeUpFor showSize d objs) (hshow : showSize = true) (hq : q ≠ [])
    (hlen : q.length ≤ d) (hdir : ShowsDir Object.levels objs q) :
    ShowsDir (Object.levelsWithin d) objs q := by
  obtain ⟨o, ho, hpre, hd⟩ := hdir
  have htake : q <+: o.levels.take d := List.prefix_take_iff.mpr ⟨hpre, hlen⟩
  by_cases heq : q = o.levels.take d
  · -- the path is all that is left of the key
    have hlevels : o.levels ≠ [] := by
      intro hnil
      rw [hnil, List.take_nil] at heq
      exact hq heq
    rw [heq]
    refine h.dirs hshow o ho hlevels (hd.imp_left fun hne => ?_)
    by_contra hle
    rw [List.take_of_length_le (Nat.le_of_not_lt hle)] at heq
    exact hne heq
  · obtain ⟨o', ho', hq'⟩ := h.levels o ho
    refine ⟨o', ho', htake.trans hq', Or.inl ?_⟩
    rintro rfl
    exact heq (htake.eq_of_length_le hq'.length_le)

theorem MadeUpFor.lastListed_eq (h : MadeUpFor showSize d objs) (hshow : showSize = true)
    (hq : q ≠ []) (hlen : q.length ≤ d) (hthrough : Through Object.levels objs q)
    (hdir : ¬ ShowsDir Object.levels objs q) :
    lastListed (Object.levelsWithin d) objs q = lastListed Object.levels objs q := by
  obtain ⟨o, ho, hpre⟩ := hthrough
  obtain ⟨rfl, -⟩ := eq_of_not_showsDir hdir ho hpre
  exact h.sizes hshow o ho hq hlen hdir

/-- The two trees show the same at each path of at most `d` levels exactly when the keys
make up for what is lost. -/
theorem same_nodes_iff (hd : 1 ≤ d) :
    (∀ q, (nodeAt (objs.map (Object.insertion (Object.levelsWithin d))) q).map (shownSize showSize) =
      if q.length ≤ d then
        (nodeAt (objs.map (Object.insertion Object.levels)) q).map (shownSize showSize)
      else none) ↔ MadeUpFor showSize d objs := by
  constructor
  · intro h
    have hthrough : ∀ {q}, q ≠ [] → q.length ≤ d → Through Object.levels objs q →
        Through (Object.levelsWithin d) objs q := by
      intro q hq hlen hq'
      have hsame := h q
      rw [Object.shownSize_nodeAt showSize hq, Object.shownSize_nodeAt showSize hq, if_pos hlen,
        if_pos hq'] at hsame
      by_contra hnot
      rw [if_neg hnot] at hsame
      cases hsame
    have hsizes : showSize = true → ∀ {q}, q ≠ [] → q.length ≤ d → Through Object.levels objs q →
        (if ShowsDir (Object.levelsWithin d) objs q then none
          else lastListed (Object.levelsWithin d) objs q) =
        if ShowsDir Object.levels objs q then none else lastListed Object.levels objs q := by
      intro hshow q hq hlen hq'
      have hsame := h q
      rw [Object.shownSize_nodeAt showSize hq, Object.shownSize_nodeAt showSize hq, if_pos hlen,
        if_pos hq', if_pos (hthrough hq hlen hq'), hshow] at hsame
      simpa using hsame
    have htake : ∀ {o : Object}, (o.levels.take d).length ≤ d := List.length_take_le d _
    refine ⟨fun o ho => ?_, fun hshow o ho hlevels hmore => ?_,
      fun hshow o ho hlevels hlen hdir => ?_⟩
    · by_cases hnil : o.levels.take d = []
      · exact ⟨o, ho, by rw [hnil]; exact List.nil_prefix⟩
      · exact hthrough hnil htake ⟨o, ho, List.take_prefix d _⟩
    · have hq : o.levels.take d ≠ [] := by
        intro hnil
        rcases List.take_eq_nil_iff.mp hnil with hzero | hlevelsNil
        · omega
        · exact hlevels hlevelsNil
      have hthroughTake := hthrough hq htake ⟨o, ho, List.take_prefix d _⟩
      have hdir : ShowsDir Object.levels objs (o.levels.take d) := by
        refine ⟨o, ho, List.take_prefix d _, hmore.imp_left fun hlt heq => ?_⟩
        have hlen := congrArg List.length heq
        rw [List.length_take] at hlen
        omega
      by_contra hnot
      -- without a directory there would be a size
      have hsame := hsizes hshow hq htake ⟨o, ho, List.take_prefix d _⟩
      have hsome := isSome_lastListed_of_not_showsDir hthroughTake hnot
      rw [if_neg hnot, if_pos hdir] at hsame
      rw [hsame] at hsome
      cases hsome
    · have hsame := hsizes hshow hlevels hlen ⟨o, ho, List.prefix_rfl⟩
      rw [if_neg hdir, if_neg fun hwithin => hdir hwithin.of_within] at hsame
      exact hsame
  · intro h q
    by_cases hq : q = []
    · simp [nodeAt, hq]
    · rw [Object.shownSize_nodeAt showSize hq, Object.shownSize_nodeAt showSize hq]
      by_cases hwithin : Through (Object.levelsWithin d) objs q
      · obtain ⟨hthrough, hlen⟩ := hwithin.of_within
        rw [if_pos hwithin, if_pos hlen, if_pos hthrough]
        cases hshow : showSize with
        | false => simp
        | true =>
          by_cases hdir : ShowsDir Object.levels objs q
          · simp [hdir, h.showsDir hshow hq hlen hdir]
          · have hnot : ¬ ShowsDir (Object.levelsWithin d) objs q := fun hd => hdir hd.of_within
            simp [hdir, hnot, h.lastListed_eq hshow hq hlen hthrough hdir]
      · rw [if_neg hwithin]
        split
        · rename_i hlen
          rw [if_neg fun hthrough => hwithin (h.through hlen hthrough)]
        · rfl

end Agree

/-- **When `--depth` cuts the tree.** Without a limit, for a listing that does not
fail, the tree printed with `--depth` is the first levels of the tree printed without it
exactly when what shortening a key loses is known from another key. What is printed is
the tree, one line for each of its nodes. -/
theorem tree_depth_iff (args : TreeArgs) (hlimit : args.limit = none) (d : Nat) (hd : 1 ≤ d)
    (objs : List Object) (hok : ∀ o ∈ objs, o.err = none) :
    (({ args with depth := some d } : TreeArgs).printed objs =
        (({ args with depth := none } : TreeArgs).printed objs).map (Forest.cut · d) ↔
      MadeUpFor args.size d objs) ∧
      ∀ displayUrl, args.run displayUrl objs =
        (args.printed objs).map fun tree => displayUrl :: lines tree [] := by
  refine ⟨?_, fun displayUrl => args.run_eq displayUrl objs⟩
  have hsome : (some d : Option Nat) ≠ some 0 := by
    intro heq
    have hzero := Option.some.inj heq
    omega
  have hwithin : ({ args with depth := some d } : TreeArgs).printed objs =
      .ok (TreeNode.shown args.size (build (objs.map (Object.insertion (Object.levelsWithin d))))) :=
    @TreeArgs.printed_eq { args with depth := some d } hlimit hsome objs hok _ fun _ => rfl
  have hall : ({ args with depth := none } : TreeArgs).printed objs =
      .ok (TreeNode.shown args.size (build (objs.map (Object.insertion Object.levels)))) :=
    @TreeArgs.printed_eq { args with depth := none } hlimit (Option.some_ne_none 0).symm objs hok
      _ fun _ => rfl
  rw [hwithin, hall, Except.map, Except.ok.injEq]
  exact (shown_eq_cut_iff args.size _ _ d).trans (same_nodes_iff hd)

namespace TreeSample

/-- A listed key of `s3://b/*`. -/
def listed (key : String) (size : Int) : Object where
  url := some { Url.ofString "s3://b/*" with relativePath := key.toList, path := key.toList }
  typ := .file
  size := size

/-- The key of `a` in full goes on, and the key of `a/` says what `a` is. -/
theorem tree_depth_marker :
    ({ depth := some 1, size := true } : TreeArgs).printed [listed "a/" 0, listed "a/b" 5] =
      (({ size := true } : TreeArgs).printed [listed "a/" 0, listed "a/b" 5]).map
        (Forest.cut · 1) :=
  (tree_depth_iff { size := true } rfl 1 (by decide) [listed "a/" 0, listed "a/b" 5]
    (by decide)).1.mpr ⟨by decide +kernel, by decide +kernel, by decide +kernel⟩

/-- A directory is printed with the size of a file in it. -/
theorem tree_depth_file_size :
    ({ depth := some 1, size := true } : TreeArgs).run "s3://b/".toList [listed "a/b" 5] =
        .ok ["s3://b/".toList, "└── a (5)".toList] ∧
      ({ size := true } : TreeArgs).run "s3://b/".toList [listed "a/b" 5] =
        .ok ["s3://b/".toList, "└── a".toList, "    └── b (5)".toList] ∧
      ({ depth := some 1, size := true } : TreeArgs).printed [listed "a/b" 5] ≠
        (({ size := true } : TreeArgs).printed [listed "a/b" 5]).map (Forest.cut · 1) := by
  refine ⟨by decide +kernel, by decide +kernel, by decide +kernel⟩

/-- An empty segment takes the place of a level. -/
example : ({ depth := some 2 } : TreeArgs).run "s3://b/".toList [listed "a//b" 5] =
    .ok ["s3://b/".toList, "└── a".toList] := by decide +kernel

end TreeSample

end Rs5cmd
