import Rs5cmd.Command.Cp
import Rs5cmd.Command.Prune
import Rs5cmd.Command.SyncScope
import Rs5cmd.Theorems.RelPath

/-!
# Where pruning stops

`prune_empty_dirs` drops the components of the relative path. For a file found under
a directory that leads back to what the move is anchored at, or below. A single named
file has no relative path, so all of its own components are dropped.
-/

namespace Rs5cmd

open LexPath

/-! ## Anchors -/

/-- What a move is anchored at: the literal directory part of a glob, a directory
with a trailing slash, the parent of another one. A single named file has no anchor:
nothing may be removed. -/
def moveAnchor (fs : LocalFs) (cwd : List Name) (src : Url) : Option (List Name) :=
  if src.isWildcard then some (locate cwd (components (goDir (Url.literalPart src.path))))
  else if fs.isDirPath src.absolute then
    if Str.endsWith '/' src.path then some (locate cwd (components src.path))
    else some (locate cwd (components src.path)).dropLast
  else none

/-- How many directories there are from `dir` up to what the move is anchored at. -/
def room (anchor : Option (List Name)) (dir : List Name) : Nat :=
  match anchor with
  | none => 0
  | some top => if top <+: dir then dir.length - top.length else 0

/-- Whatever was removed was empty, and lies strictly inside the anchor. -/
structure PruneFrame (anchor : Option (List Name)) (cwd : List Name) (trees : Nat → DirTree)
    (removed : List (Nat × List PathComp)) : Prop where
  empty : ∀ r ∈ removed, (trees r.1).IsEmptyDir (locate cwd r.2)
  inside : ∀ r ∈ removed, ∃ top, anchor = some top ∧ top <+: locate cwd r.2 ∧ top ≠ locate cwd r.2

section Climb

variable {anchor : Option (List Name)} {cwd : List Name} {trees : Nat → DirTree} {c : List PathComp}

/-- A climb whose calls succeed goes up a level at a time. -/
theorem locate_climb {k : Nat} (h : ∀ l < k, (trees l).removes cwd (c.drop (l + 1)) = true) :
    k ≤ (locate cwd (c.drop 1)).length ∧ locate cwd (c.drop (k + 1)) =
      (locate cwd (c.drop 1)).take ((locate cwd (c.drop 1)).length - k) := by
  induction k with
  | zero => simp
  | succ k ih =>
    obtain ⟨hle, hk⟩ := ih fun l hl => h l (by omega)
    obtain ⟨-, n, up, hpath, hloc⟩ := DirTree.removes_eq_true (h k (by omega))
    have hup : up = c.drop (k + 1 + 1) := by
      rw [← List.drop_drop, hpath]
      rfl
    subst hup
    have hlen := congrArg List.length (hk.symm.trans hloc)
    simp only [List.length_take, List.length_append, List.length_singleton] at hlen
    refine ⟨by omega, ?_⟩
    have hdrop := congrArg List.dropLast (hk.symm.trans hloc)
    rw [List.dropLast_concat] at hdrop
    rw [← hdrop, List.dropLast_eq_take, List.take_take, List.length_take]
    congr 1
    omega

/-- The directories inside the anchor are those that there is room for. -/
theorem inside_take_iff {dir : List Name} {k : Nat} (hk : k ≤ dir.length) :
    (∃ top, anchor = some top ∧ top <+: dir.take (dir.length - k) ∧
      top ≠ dir.take (dir.length - k)) ↔ k < room anchor dir := by
  cases anchor with
  | none => simp [room]
  | some top =>
    have htake : (dir.take (dir.length - k)).length = dir.length - k := by
      rw [List.length_take]
      omega
    rw [room]
    constructor
    · rintro ⟨top', heq, hpre, hne⟩
      obtain rfl := Option.some.inj heq
      have hlt : top.length < dir.length - k := by
        rw [← htake]
        exact Nat.lt_of_le_of_ne hpre.length_le fun hlen => hne (hpre.eq_of_length hlen)
      rw [if_pos (hpre.trans (List.take_prefix _ _))]
      omega
    · intro hroom
      split at hroom
      · rename_i hpre
        refine ⟨top, rfl, ?_, ?_⟩
        · exact List.prefix_of_prefix_length_le hpre (List.take_prefix _ _) (by omega)
        · intro heq
          have := congrArg List.length heq
          omega
      · omega

/-- **When pruning keeps to the anchor**: the relative path has no more directories
than there is room for, or one of the calls up to the first one too many fails. -/
theorem pruneFrame_iff {src : Url}
    (hcount : relComponents src ≤ (components src.absolute).countP PathComp.isNormal) :
    PruneFrame anchor cwd trees (pruneEmptyDirs cwd trees src) ↔
      relComponents src ≤ room anchor (locate cwd ((components src.absolute).drop 1)) + 1 ∨
      ∃ j ≤ room anchor (locate cwd ((components src.absolute).drop 1)),
        (trees j).removes cwd ((components src.absolute).drop (j + 1)) = false := by
  generalize hr : room anchor (locate cwd ((components src.absolute).drop 1)) = r
  have hinside : ∀ {k : Nat}, (∀ l ≤ k, (trees l).removes cwd
      ((components src.absolute).drop (l + 1)) = true) → ((∃ top, anchor = some top ∧
        top <+: locate cwd ((components src.absolute).drop (k + 1)) ∧
        top ≠ locate cwd ((components src.absolute).drop (k + 1))) ↔ k < r) := by
    intro k h
    obtain ⟨hle, hloc⟩ := locate_climb (k := k) fun l hl => h l (Nat.le_of_lt hl)
    rw [hloc, inside_take_iff hle, hr]
  constructor
  · intro h
    by_contra hno
    rw [not_or, not_exists, Nat.not_le] at hno
    obtain ⟨hlt, hall⟩ := hno
    have hall : ∀ l ≤ r, (trees l).removes cwd ((components src.absolute).drop (l + 1)) = true := by
      intro l hl
      simpa using fun hfalse => hall l ⟨hl, hfalse⟩
    -- the directory one level too high is removed
    have hmem := (mem_pruneEmptyDirs hcount).mpr ⟨hlt, rfl, hall⟩
    exact Nat.lt_irrefl _ ((hinside hall).mp (h.inside _ hmem))
  · intro h
    refine ⟨?_, ?_⟩
    · rintro ⟨k, dir⟩ hmem
      obtain ⟨-, rfl, hall⟩ := (mem_pruneEmptyDirs hcount).mp hmem
      exact (DirTree.removes_eq_true (hall k (Nat.le_refl k))).1
    · rintro ⟨k, dir⟩ hmem
      obtain ⟨hk, rfl, hall⟩ := (mem_pruneEmptyDirs hcount).mp hmem
      refine (hinside hall).mpr ?_
      rcases h with h | ⟨j, hj, hfail⟩
      · omega
      · by_contra hno
        rw [hall j (by omega)] at hfail
        cases hfail

end Climb

/-! ## Counting components -/

section Count

theorem nameCount_append (a b : List (Seg Name)) : nameCount (a ++ b) = nameCount a + nameCount b :=
  List.countP_append

theorem nameCount_names (w : List Name) : nameCount (w.map .name) = w.length := by
  rw [nameCount, List.countP_map]
  exact List.countP_eq_length.mpr fun _ _ => rfl

theorem nameCount_ups (n : Nat) : nameCount (List.replicate n .up) = 0 := by
  rw [nameCount, List.countP_replicate]
  rfl

theorem nameCount_outOf (l : Loc Name) : nameCount ((outOf l).filterMap toSeg) = l.names.length := by
  rw [filterMap_toSeg_outOf, nameCount_append, nameCount_ups, nameCount_names, Nat.zero_add]

theorem nameCount_sublist {a b : List Str} (h : a.Sublist b) :
    nameCount (a.filterMap toSeg) ≤ nameCount (b.filterMap toSeg) :=
  (h.filterMap toSeg).countP_le

/-- A path has a component for each name of its location. -/
theorem length_names_walk_le (l : Loc Name) (segs : List (Seg Name)) :
    (l.walk segs).names.length ≤ l.names.length + nameCount segs := by
  induction segs generalizing l with
  | nil => simp
  | cons s segs ih =>
    rw [Loc.walk_cons]
    refine Nat.le_trans (ih _) ?_
    cases s with
    | name n =>
      have hcons : nameCount (.name n :: segs) = nameCount segs + 1 := List.countP_cons_of_pos rfl
      rw [Loc.step, Loc.descend_names, List.length_append, List.length_singleton, hcons]
      omega
    | up =>
      have hcons : nameCount (.up :: segs) = nameCount segs := rfl
      have hle : (l.climb 1).names.length ≤ l.names.length := by
        simp only [Loc.climb, List.length_take]
        omega
      rw [Loc.step, hcons]
      omega

theorem length_locOf_names_le (p : Str) : (locOf p).names.length ≤ nameCount (segsOf p) := by
  have := length_names_walk_le (Loc.start (Str.startsWith ['/'] p)) (segsOf p)
  rwa [show (Loc.start (Str.startsWith ['/'] p) : Loc Name).names.length = 0 from rfl,
    Nat.zero_add] at this

theorem length_le_commonLen {pre a b : List Str} (ha : pre <+: a) (hb : pre <+: b) :
    pre.length ≤ commonLen a b := by
  induction pre generalizing a b with
  | nil => exact Nat.zero_le _
  | cons x pre ih =>
    obtain ⟨a', rfl⟩ := ha
    obtain ⟨b', rfl⟩ := hb
    rw [List.cons_append, List.cons_append, commonLen, if_pos rfl, List.length_cons]
    exact Nat.succ_le_succ (ih (List.prefix_append _ _) (List.prefix_append _ _))

/-- **What a relative path goes down along**: at most the names of the target that it
does not share with the base. -/
theorem nameCount_relPath_le (base target : Str) {w : List Name}
    (hb : w <+: (locOf base).names) (ht : w <+: (locOf target).names)
    (hups : w ≠ [] → (locOf base).ups = (locOf target).ups) :
    nameCount (segsOf (relPath base target)) ≤ (locOf target).names.length - w.length := by
  by_cases heq : locOf base = locOf target
  · rw [relPath_eq, if_pos heq]
    exact Nat.zero_le _
  have hmoves : ∀ n, nameCount ((List.replicate n dotdot).filterMap toSeg) = 0 := by
    intro n
    induction n with
    | zero => rfl
    | succ n ih =>
      rw [List.replicate_succ, List.filterMap_cons, toSeg_dotdot]
      exact ih
  rw [segsOf_relPath heq, relParts, List.filterMap_append, nameCount_append, hmoves, Nat.zero_add]
  by_cases hw : w = []
  · rw [hw, List.length_nil, Nat.sub_zero]
    refine Nat.le_trans (nameCount_sublist (List.drop_sublist _ _)) ?_
    unfold cleanSegs
    split
    · exact Nat.zero_le _
    · exact Nat.le_of_eq (nameCount_outOf _)
  · -- both spellings start with the same climbs and names
    have hspell : ∀ {l : Loc Name}, w <+: l.names → l.ups = (locOf target).ups →
        List.replicate (locOf target).ups dotdot ++ w.map Subtype.val <+: cleanSegs l := by
      intro l hpre hl
      have hne : l ≠ Loc.start false := by
        rintro rfl
        exact hw (List.prefix_nil.mp hpre)
      rw [cleanSegs, if_neg hne, outOf, hl]
      exact (List.prefix_append_right_inj _).mpr (hpre.map _)
    have hcommon := length_le_commonLen (hspell hb (hups hw)) (hspell ht rfl)
    have htarget : cleanSegs (locOf target) = outOf (locOf target) := by
      refine if_neg fun hstart => ?_
      rw [hstart] at ht
      exact hw (List.prefix_nil.mp ht)
    obtain ⟨rest, hrest⟩ := ht
    have hdrop : (cleanSegs (locOf target)).drop
        (List.replicate (locOf target).ups dotdot ++ w.map Subtype.val).length =
          rest.map Subtype.val := by
      rw [htarget, outOf, ← hrest, List.map_append, ← List.append_assoc]
      exact List.drop_left
    refine Nat.le_trans (nameCount_sublist (List.drop_sublist_drop_left _ hcommon)) ?_
    have hnames : (rest.map Subtype.val).filterMap toSeg = rest.map .name := by
      rw [List.filterMap_map, ← List.filterMap_eq_map]
      exact List.filterMap_congr fun n _ => toSeg_name n
    rw [hdrop, hnames, nameCount_names, ← hrest, List.length_append]
    omega

end Count

/-! ## Files of a source -/

section Source

variable {cwd : List Name}

/-- The directory of a path has all the names of the path but the last, and climbs as
far if there are any. -/
theorem locOf_goDir (p : Str) :
    (Str.endsWith '/' p = true → locOf (goDir p) = locOf p) ∧
      (locOf p).names.dropLast <+: (locOf (goDir p)).names ∧
      ((locOf p).names ≠ [] → (locOf (goDir p)).ups = (locOf p).ups) := by
  obtain ⟨parent, last, rfl, hlast, hparent⟩ := exists_dirPart p
  rw [goDir_append hlast hparent, locOf_cleanPath, locOf_append_last hparent hlast]
  generalize locOf parent = l
  have hsegs : segsOf last = (toSeg last).toList := by
    have hsplit : Str.split '/' last = [last] := by
      have := @split_join [last] (by simpa using hlast) (by simp)
      simpa [Str.join, List.intercalate] using this
    rw [segsOf, hsplit, List.filterMap_cons, List.filterMap_nil]
    cases toSeg last <;> rfl
  rw [hsegs]
  refine ⟨fun hend => ?_, ?_⟩
  · by_cases hnil : last = []
    · subst hnil
      rfl
    · rw [Str.endsWith_append _ _ hnil, Str.endsWith_of_not_mem hlast] at hend
      cases hend
  · cases toSeg last with
    | none => exact ⟨List.dropLast_prefix _, fun _ => rfl⟩
    | some s =>
      rw [Option.toList_some, Loc.walk_cons, Loc.walk_nil]
      cases s with
      | name n =>
        rw [Loc.step, Loc.descend_names, Loc.descend_ups, List.dropLast_concat]
        exact ⟨List.prefix_refl _, fun _ => rfl⟩
      | up =>
        have hnames : (l.climb 1).names = l.names.dropLast := List.dropLast_eq_take.symm
        rw [Loc.step, hnames]
        refine ⟨(List.dropLast_prefix _).trans (List.dropLast_prefix _), fun hne => ?_⟩
        have hlen : 1 - l.names.length = 0 := by
          cases hl : l.names with
          | nil =>
            rw [hl] at hne
            exact absurd rfl hne
          | cons n ns =>
            rw [List.length_cons]
            omega
        show l.ups = if l.rooted then l.ups else l.ups + (1 - l.names.length)
        rw [hlen, Nat.add_zero, ite_self]

/-- Where there is room for the names of a relative path. -/
theorem relComponents_le_room {top : List Name} {u : Url} {w : List Name}
    (hcount : relComponents u ≤ w.length)
    (hfile : locate cwd (components u.absolute) = top ++ w) :
    relComponents u ≤ room (some top) (locate cwd ((components u.absolute).drop 1)) + 1 := by
  by_cases hone : relComponents u ≤ 1
  · omega
  · have hw : w ≠ [] := by
      rintro rfl
      simp at hcount
      omega
    have hpre : top ++ w.dropLast <+: locate cwd ((components u.absolute).drop 1) := by
      have hup : ∀ {path : List PathComp}, (locate cwd path).dropLast <+: locate cwd (path.drop 1) := by
        intro path
        cases hp : pathParent path with
        | none =>
          match path, hp with
          | [], _ => exact List.dropLast_prefix _
          | .rootDir :: up, _ => exact List.nil_prefix
        | some up =>
          have hdrop : path.drop 1 = up := by
            match path, hp with
            | .curDir :: _, rfl => rfl
            | .seg _ :: _, rfl => rfl
          rw [hdrop]
          exact dropLast_locate_prefix hp
      have hparent : (locate cwd (components u.absolute)).dropLast <+: _ := hup
      rwa [hfile, List.dropLast_append_of_ne_nil hw] at hparent
    have hlen := hpre.length_le
    have hwlen := List.length_pos_of_ne_nil hw
    rw [List.length_append, List.length_dropLast] at hlen
    rw [room, if_pos ((List.prefix_append _ _).trans hpre)]
    omega

/-- The components of the relative path of a found file. -/
theorem relComponents_setRelative {base file : Url} (hfile : file.IsLocal) :
    relComponents (file.setRelative base) = nameCount (segsOf (relPath base.baseDir file.path)) := by
  have hset : (file.setRelative base).relativePath = relPath base.baseDir file.absolute := rfl
  rw [relComponents, Url.relative, hset, if_pos (relPath_ne_nil _ _), hfile.absolute_eq,
    countP_components]

/-- They are among those of its path. -/
theorem relComponents_setRelative_le {base file : Url} (hfile : file.IsLocal) :
    relComponents (file.setRelative base) ≤
      (components (file.setRelative base).absolute).countP PathComp.isNormal := by
  have hle := nameCount_relPath_le base.baseDir file.path (w := [])
    List.nil_prefix List.nil_prefix (fun h => absurd rfl h)
  have := length_locOf_names_le file.path
  rw [relComponents_setRelative hfile, absolute_setRelative, hfile.absolute_eq, countP_components]
  rw [List.length_nil] at hle
  omega

/-- **A file below a directory** is taken relative to that directory or to its parent. -/
theorem relComponents_below {dir file : Url} (hdir : dir.IsLocal) (hwild : dir.isWildcard = false)
    (hfile : file.IsLocal) (hinside : Inside (locOf dir.path) (locOf file.path)) :
    ∃ w, place cwd (locOf file.path) = place cwd (locOf dir.path) ++ w ∧
      (Str.endsWith '/' dir.path = true ∨ place cwd (locOf dir.path) = [] →
        relComponents (file.setRelative dir) ≤ w.length) ∧
      relComponents (file.setRelative dir) ≤ w.length + 1 := by
  obtain ⟨w, hnames, hplace⟩ := place_of_inside hinside
  obtain ⟨hslash, hdrop, hups⟩ := locOf_goDir dir.path
  have hbase : dir.baseDir = goDir dir.path := by
    rw [Url.baseDir, hwild, if_neg Bool.false_ne_true, hdir.absolute_eq]
  have hlen := congrArg List.length hnames
  rw [List.length_append] at hlen
  rw [relComponents_setRelative hfile, hbase]
  refine ⟨w, hplace, ?_, ?_⟩
  · rintro (hend | hnil)
    · have := nameCount_relPath_le (goDir dir.path) file.path
        (w := (locOf dir.path).names) (by rw [hslash hend]) hinside.2.2
        (fun _ => by rw [hslash hend, hinside.2.1])
      omega
    · -- at the root there is nothing to share
      have hnone : (locOf dir.path).names = [] := by
        unfold place at hnil
        split at hnil
        · exact hnil
        · exact (List.append_eq_nil_iff.mp hnil).2
      have := nameCount_relPath_le (goDir dir.path) file.path (w := [])
        List.nil_prefix List.nil_prefix (fun h => absurd rfl h)
      rw [hnone, List.length_nil] at hlen
      rw [List.length_nil] at this
      omega
  · have := nameCount_relPath_le (goDir dir.path) file.path
      (w := (locOf dir.path).names.dropLast) hdrop
      ((List.dropLast_prefix _).trans hinside.2.2)
      (fun hne => by
        rw [hups fun hnil => hne (by rw [hnil]; rfl), hinside.2.1])
    rw [List.length_dropLast] at this
    omega

end Source

/-! ## The files of a run -/

/-- A file that a run has moved: the source that it comes from, and the trees that
the calls of its pruning meet. -/
structure MovedFile where
  source : Url
  file : Url
  trees : Nat → DirTree

/-- The file is one of those that a local source expands to. -/
def MovedFile.From (b : Backend) (args : CpArgs) (dst : Url) (filters : Filters) (m : MovedFile) :
    Prop :=
  m.source.isRemote = false ∧
    (∃ raw, Url.new raw { versionId := args.versionId, allVersions := args.allVersions } =
      .ok m.source) ∧
    ∃ pairs d, expandSources b m.source dst args.followSymlinks filters = .ok pairs ∧
      (m.file, d) ∈ pairs

section Run

variable {b : Backend} {args : CpArgs} {dst : Url} {filters : Filters} {cwd : List Name}

theorem keptSource_eq_some {obj : Object} {u : Url} (h : keptSource filters obj = some u) :
    obj.err = none ∧ obj.url = some u := by
  unfold keptSource at h
  split at h
  · cases h
  · rename_i herr
    split at h
    · cases h
    · rename_i v hv
      split at h
      · cases h
      · split at h
        · cases h
        · exact ⟨by simpa using herr, hv.trans h⟩

/-- What a source expands to is itself, or was found under it. -/
theorem MovedFile.From.cases {m : MovedFile} (h : m.From b args dst filters) :
    m.source.IsLocal ∧ m.source.relativePath = [] ∧
      ((m.file = m.source ∧ ¬ (m.source.isWildcard = false ∧
          b.fs.isDirPath m.source.absolute = true ∧ b.fs.IsDir m.source)) ∨
        ∃ base file, b.fs.Found m.source args.followSymlinks base file ∧
          m.file = file.setRelative base) := by
  obtain ⟨hremote, ⟨raw, hnew⟩, pairs, d, hpairs, hmem⟩ := h
  have hlocal : m.source.IsLocal ∧ m.source.relativePath = [] := by
    rcases Url.new_eq_ok rfl hnew with ⟨hno, hsrc⟩ | ⟨rest, bucket, key, -, -, -, -, hsrc⟩
    · rw [hsrc]
      exact ⟨⟨rfl, hno⟩, rfl⟩
    · rw [hsrc] at hremote
      cases hremote
  refine ⟨hlocal.1, hlocal.2, ?_⟩
  have hclient : b.newClient m.source = .ok (.loc b.fs) := by
    rw [Backend.newClient, hremote]
    rfl
  have hversions : expandsVersions m.source = false := by
    rw [expandsVersions, hremote, Bool.false_and, Bool.false_and]
  unfold expandSources at hpairs
  rw [hclient] at hpairs
  cases hmulti : isMulti b.fs m.source with
  | false =>
    simp only [hversions, hmulti, Bool.false_eq_true, if_false, Bool.not_false, if_true, bind,
      Except.bind, pure, Except.pure] at hpairs
    obtain rfl := Except.ok.inj hpairs
    refine .inl ⟨(Prod.mk.inj (List.mem_singleton.mp hmem)).1, ?_⟩
    rintro ⟨hwild, hdir, -⟩
    rw [isMulti, hwild, if_neg Bool.false_ne_true, hremote, if_neg Bool.false_ne_true, hdir] at hmulti
    cases hmulti
  | true =>
    simp only [hversions, hmulti, Bool.false_eq_true, if_false, Bool.not_true, bind, Except.bind,
      pure, Except.pure] at hpairs
    obtain rfl := Except.ok.inj hpairs
    obtain ⟨u, hu, heq⟩ := List.mem_map.mp hmem
    obtain ⟨obj, hobj, hkept⟩ := List.mem_filterMap.mp hu
    obtain ⟨herr, hurl⟩ := keptSource_eq_some hkept
    obtain ⟨rfl, -⟩ := Prod.mk.inj heq
    by_cases hfind : m.source.isWildcard = true ∨ b.fs.IsDir m.source
    · obtain ⟨base, file, hfound, hfile⟩ := LocalFs.found_of_mem_list hfind hobj herr
      exact .inr ⟨base, file, hfound, Option.some.inj (hurl.symm.trans hfile)⟩
    · -- a link to a directory, or what is no directory, is listed as itself
      rw [not_or] at hfind
      refine .inl ⟨?_, fun h => hfind.2 h.2.2⟩
      have hlist : obj ∈ b.fs.list m.source args.followSymlinks := hobj
      unfold LocalFs.list at hlist
      rw [if_neg hfind.1] at hlist
      split at hlist
      · rename_i o hstat
        rw [if_neg fun hdir => hfind.2 ((LocalFs.statSync_cases hstat).1.mp hdir)] at hlist
        obtain rfl := List.mem_singleton.mp hlist
        exact Option.some.inj (hurl.symm.trans (LocalFs.statSync_err hstat).2)
      · rw [List.mem_singleton.mp hlist] at herr
        cases herr

/-- The components of the relative path are among those of the path. -/
theorem MovedFile.From.count (hfs : b.fs.Lexical) {m : MovedFile} (h : m.From b args dst filters) :
    relComponents m.file ≤ (components m.file.absolute).countP PathComp.isNormal := by
  obtain ⟨hlocal, hrel, ⟨hfile, -⟩ | ⟨base, file, hfound, hfile⟩⟩ := h.cases
  · rw [hfile, relComponents, Url.relative, if_neg (not_not.mpr hrel)]
  · rw [hfile]
    exact relComponents_setRelative_le (hfound.isLocal hfs hlocal).2.1

/-- **There is room below a directory source** for the relative paths of its files. -/
theorem MovedFile.From.room_of_dir (hfs : b.fs.Lexical) {m : MovedFile} (h : m.From b args dst filters)
    (hwild : m.source.isWildcard = false) (hdir : b.fs.isDirPath m.source.absolute = true)
    (hisdir : b.fs.IsDir m.source) :
    relComponents m.file ≤ room (moveAnchor b.fs cwd m.source)
      (locate cwd ((components m.file.absolute).drop 1)) + 1 := by
  obtain ⟨hlocal, hrel, ⟨-, hno⟩ | ⟨base, file, hfound, hfile⟩⟩ := h.cases
  · exact absurd ⟨hwild, hdir, hisdir⟩ hno
  · obtain ⟨-, hfilelocal, -⟩ := hfound.isLocal hfs hlocal
    cases hfound with
    | matched hyes => rw [hwild] at hyes; cases hyes
    | below hyes => rw [hwild] at hyes; cases hyes
    | walked _ hentry hnew =>
      rw [hlocal.absolute_eq] at hentry
      obtain ⟨hinside, hscheme⟩ := hfs.walk _ _ _ hentry
      rw [← (Url.isLocal_of_new (hscheme hlocal.noScheme) hnew).2] at hinside
      obtain ⟨w, hplace, hat, hbelow⟩ :=
        relComponents_below hlocal hwild hfilelocal hinside
      have hloc : locate cwd (components m.file.absolute) =
          locate cwd (components m.source.path) ++ w := by
        rw [hfile, absolute_setRelative, hfilelocal.absolute_eq, locate_components,
          locate_components, hplace]
      rw [← hfile, ← locate_components] at hat
      rw [← hfile] at hbelow
      rw [moveAnchor, if_neg (by rw [hwild]; exact Bool.false_ne_true), if_pos hdir]
      split
      · rename_i hend
        exact relComponents_le_room (hat (.inl hend)) hloc
      · -- the parent, which the root is its own
        rcases List.eq_nil_or_concat' (locate cwd (components m.source.path)) with hnil | ⟨init, n, hcat⟩
        · rw [hnil] at hloc ⊢
          exact relComponents_le_room (hat (.inr hnil)) hloc
        · rw [hcat] at hloc ⊢
          rw [List.dropLast_concat]
          refine relComponents_le_room (w := n :: w) hbelow ?_
          rw [hloc, List.append_assoc, List.singleton_append]

/-- **Where pruning keeps to the anchor, exactly.** Every directory removed in a run
was empty and lies strictly inside the anchor of its move iff each moved file comes
from a source that is a directory, or has a relative path for whose directories there
is room, or meets a directory that cannot be removed before the first one too many. -/
theorem prune_frame_iff (hfs : b.fs.Lexical) (cwd : List Name) (moved : List MovedFile)
    (hmoved : ∀ m ∈ moved, m.From b args dst filters) :
    (∀ m ∈ moved, PruneFrame (moveAnchor b.fs cwd m.source) cwd m.trees
      (pruneEmptyDirs cwd m.trees m.file)) ↔
    ∀ m ∈ moved, (m.source.isWildcard = false ∧ b.fs.isDirPath m.source.absolute = true ∧
        b.fs.IsDir m.source) ∨
      relComponents m.file ≤ room (moveAnchor b.fs cwd m.source)
        (locate cwd ((components m.file.absolute).drop 1)) + 1 ∨
      ∃ j ≤ room (moveAnchor b.fs cwd m.source) (locate cwd ((components m.file.absolute).drop 1)),
        (m.trees j).removes cwd ((components m.file.absolute).drop (j + 1)) = false := by
  refine forall₂_congr fun m hm => ?_
  have hfrom := hmoved m hm
  rw [pruneFrame_iff (hfrom.count hfs)]
  refine ⟨.inr, ?_⟩
  rintro (⟨hwild, hdir, hisdir⟩ | h)
  · exact .inl (hfrom.room_of_dir hfs hwild hdir hisdir)
  · exact h

end Run

namespace PruneSample

/-- A filesystem with the directory `d`, in which there is `s/f`, and the file `a/b/c`. -/
def fs : LocalFs :=
  { LocalFs.empty with
    symlinkMetadata := fun p =>
      if p = "d/".toList then .ok ⟨.dir, 0, none⟩ else .ok ⟨.file, 0, none⟩
    metadata := fun p => if p = "d/".toList then .ok ⟨.dir, 0, none⟩ else .ok ⟨.file, 0, none⟩
    walkDir := fun root _ => if root = "d/".toList then [.ok ⟨"d/s/f".toList, .file⟩] else [] }

theorem fs_lexical : fs.Lexical where
  walk := by
    intro root follow entry h
    by_cases hroot : root = "d/".toList
    · subst hroot
      obtain rfl := Except.ok.inj (List.mem_singleton.mp h)
      exact ⟨⟨by decide, by decide, by decide⟩, fun _ => by decide⟩
    · simp only [fs, if_neg hroot, List.not_mem_nil] at h
  glob := by
    intro pattern found e h he
    obtain rfl := Except.ok.inj h
    cases he

def backend : Backend where
  newS3 _ := .error .noObjectFound
  fs := fs

def dst : Url := .parsed .remote "s3".toList "b".toList [] {}

def name (s : String) (h : IsName s.toList) : Name := ⟨s.toList, h⟩

def a : Name := name "a" (by decide)
def b : Name := name "b" (by decide)
def d : Name := name "d" (by decide)
def s : Name := name "s" (by decide)

/-- A tree with one directory. -/
def outer (x : Name) : DirTree where
  entries := [([x], .dir)]
  once := by simp
  kinds := by simp
  closed := by simp [List.inits, -List.mem_inits]

/-- A tree with a directory and one in it. -/
def nested (x y : Name) : DirTree where
  entries := [([x], .dir), ([x, y], .dir)]
  once := by simp
  kinds := by simp
  closed := by simp [List.inits, -List.mem_inits]

/-- `mv --remove-empty-dirs d/ s3://b`. -/
def dirMove : MovedFile where
  source := .parsed .loc [] [] "d/".toList {}
  file := (Url.parsed .loc [] [] "d/s/f".toList {}).setRelative (.parsed .loc [] [] "d/".toList {})
  trees i := if i = 0 then nested d s else outer d

theorem from_dirMove : dirMove.From backend {} dst noFilters := by
  refine ⟨rfl, ⟨"d/".toList, by decide +kernel⟩, _, dst.join dirMove.file.relative, rfl, ?_⟩
  decide +kernel

/-- The directory `d/s` is removed, and `d` is not. -/
theorem prune_frame_dir : PruneFrame (moveAnchor fs [] dirMove.source) [] dirMove.trees
    (pruneEmptyDirs [] dirMove.trees dirMove.file) := by
  have hmoved : ∀ m ∈ [dirMove], m.From backend {} dst noFilters := by
    intro m hm
    obtain rfl := List.mem_singleton.mp hm
    exact from_dirMove
  refine (prune_frame_iff fs_lexical [] [dirMove] hmoved).mpr ?_ dirMove List.mem_cons_self
  intro m hm
  obtain rfl := List.mem_singleton.mp hm
  exact .inl ⟨by decide +kernel, by decide +kernel, ⟨.dir, 0, none⟩, rfl, rfl⟩

/-- `mv --remove-empty-dirs a/b/c s3://b`. -/
def fileMove : MovedFile where
  source := .parsed .loc [] [] "a/b/c".toList {}
  file := .parsed .loc [] [] "a/b/c".toList {}
  trees i := if i = 0 then nested a b else outer a

/-- The move of the single file `a/b/c` removes `a/b` and `a`. -/
theorem prune_climbs_out : fs.Lexical ∧ fileMove.From backend {} dst noFilters ∧
    (pruneEmptyDirs [] fileMove.trees fileMove.file).map (fun r => locate [] r.2) = [[a, b], [a]] ∧
    ¬ PruneFrame (moveAnchor fs [] fileMove.source) [] fileMove.trees
      (pruneEmptyDirs [] fileMove.trees fileMove.file) := by
  have hremoved : (pruneEmptyDirs [] fileMove.trees fileMove.file).map (fun r => locate [] r.2) =
      [[a, b], [a]] := by
    decide +kernel
  refine ⟨fs_lexical, ⟨rfl, ⟨"a/b/c".toList, by decide +kernel⟩, _,
    resolveSingleDest fs fileMove.source dst, rfl, List.mem_singleton_self _⟩, hremoved, ?_⟩
  · intro h
    have hmem : [a] ∈ (pruneEmptyDirs [] fileMove.trees fileMove.file).map fun r => locate [] r.2 := by
      rw [hremoved]
      decide
    obtain ⟨r, hr, -⟩ := List.mem_map.mp hmem
    obtain ⟨top, htop, -⟩ := h.inside r hr
    have hnone : moveAnchor fs [] fileMove.source = none := by decide +kernel
    rw [hnone] at htop
    cases htop

end PruneSample

end Rs5cmd
