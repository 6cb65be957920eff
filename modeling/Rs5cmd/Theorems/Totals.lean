import Rs5cmd.Theorems.InKeyOrder
import Mathlib.Algebra.BigOperators.Group.List.Basic

/-!
# `du` and `ls --summarize` add up the same objects

The totals are those of the objects that the source names and no pattern excludes,
whichever API lists them and wherever its pages are cut. Sums wrap, so the order in which
the objects arrive does not show in them either.
-/

namespace Rs5cmd

/-! ## Sums -/

/-- The sizes of some objects, and how many there are. -/
def SizeAndCount.of (l : List Object) : SizeAndCount :=
  ⟨Int64.ofInt (l.map Object.size).sum, Int64.ofNat l.length⟩

theorem SizeAndCount.foldl_add (l : List Object) (sc : SizeAndCount) :
    l.foldl SizeAndCount.add sc =
      ⟨sc.size + (SizeAndCount.of l).size, sc.count + (SizeAndCount.of l).count⟩ := by
  induction l generalizing sc with
  | nil =>
    show sc = ⟨sc.size + 0, sc.count + 0⟩
    rw [Int64.add_zero, Int64.add_zero]
  | cons obj l ih =>
    rw [List.foldl_cons, ih]
    show SizeAndCount.mk (sc.size + Int64.ofInt obj.size + Int64.ofInt (l.map Object.size).sum)
      (sc.count + 1 + Int64.ofNat l.length) = ⟨sc.size + Int64.ofInt ((obj :: l).map Object.size).sum,
        sc.count + Int64.ofNat (l.length + 1)⟩
    rw [List.map_cons, List.sum_cons, Int64.ofInt_add, Int64.add_assoc, Nat.add_comm l.length 1,
      Int64.ofNat_add, Int64.add_assoc]
    rfl

theorem SizeAndCount.foldl_add_zero (l : List Object) :
    l.foldl SizeAndCount.add {} = SizeAndCount.of l := by
  rw [SizeAndCount.foldl_add, Int64.zero_add, Int64.zero_add]

/-- The sums do not depend on the order. -/
theorem SizeAndCount.of_congr {l l' : List Object} (h : l.Perm l') :
    SizeAndCount.of l = SizeAndCount.of l' := by
  rw [SizeAndCount.of, SizeAndCount.of, (h.map Object.size).sum_eq, h.length_eq]

/-! ## du -/

section Du

variable {excludes : List Regex} {es l l' : List Object}

/-- The totals of some objects. -/
def DuTotals.of (l : List Object) : DuTotals where
  total := .of l
  byClass := l.foldl (Collect.tally Object.storageClass {} SizeAndCount.add) ∅

theorem DuTotals.foldl_take (excludes : List Regex) (es : List Object) :
    es.foldl (DuTotals.take excludes) {} = .of (es.filter (duCounts excludes)) := by
  have hgen (s : DuTotals) : es.foldl (DuTotals.take excludes) s =
      { total := (es.filter (duCounts excludes)).foldl SizeAndCount.add s.total
        byClass := (es.filter (duCounts excludes)).foldl
          (Collect.tally Object.storageClass {} SizeAndCount.add) s.byClass } := by
    induction es generalizing s with
    | nil => rfl
    | cons obj es ih =>
      rw [List.foldl_cons, ih, List.filter_cons, DuTotals.take]
      split
      · rfl
      · rfl
  rw [hgen, DuTotals.of, ← SizeAndCount.foldl_add_zero]

theorem DuTotals.getElem?_byClass (l : List Object) (c : Str) :
    (DuTotals.of l).byClass[c]? =
      if (l.filter fun obj => obj.storageClass = c) = [] then none
      else some (.of (l.filter fun obj => obj.storageClass = c)) := by
  rw [DuTotals.of, Collect.getElem?_foldl_tally, Std.ExtTreeMap.getElem?_empty, Option.getD_none,
    SizeAndCount.foldl_add_zero]

/-- **The groups of a listing**: one for each storage class that some object has, with the
sums of its objects. -/
structure GroupsOf (l : List Object) (groups : List (Str × SizeAndCount)) : Prop where
  sorted : groups.Pairwise fun a b => compare a.1 b.1 = .lt
  mem : ∀ c sc, (c, sc) ∈ groups ↔ (∃ obj ∈ l, obj.storageClass = c) ∧
    sc = .of (l.filter fun obj => obj.storageClass = c)

theorem DuTotals.groupsOf (h : l.Perm l') : GroupsOf l' (DuTotals.of l).byClass.toList where
  sorted := Std.ExtTreeMap.ordered_keys_toList
  mem := by
    intro c sc
    have hsame := h.filter fun obj => decide (obj.storageClass = c)
    rw [Std.ExtTreeMap.mem_toList_iff_getElem?_eq_some, DuTotals.getElem?_byClass,
      SizeAndCount.of_congr hsame]
    split
    · rename_i hnone
      constructor
      · intro hsc
        cases hsc
      · rintro ⟨⟨obj, hobj, hc⟩, -⟩
        have hnot := List.filter_eq_nil_iff.mp hnone obj (h.mem_iff.mpr hobj)
        exact absurd (decide_eq_true hc) hnot
    · rename_i hsome
      obtain ⟨obj, hobj⟩ := List.exists_mem_of_ne_nil _ hsome
      obtain ⟨hmem, hc⟩ := List.mem_filter.mp hobj
      constructor
      · intro hsc
        exact ⟨⟨obj, h.mem_iff.mp hmem, of_decide_eq_true hc⟩, (Option.some.inj hsc).symm⟩
      · rintro ⟨-, rfl⟩
        rfl

end Du

/-! ## ls -/

section Ls

variable {filters : Filters} {newerThan olderThan : Option Int}

/-- The entries that `ls --summarize` counts. -/
def lsCounts (filters : Filters) (newerThan olderThan : Option Int) (obj : Object) : Bool :=
  lsShows filters newerThan olderThan obj && !obj.typ.isDir

theorem LsState.foldl_take (es : List Object) (s : LsState) :
    es.foldl (LsState.take filters newerThan olderThan true) s =
      { shown := s.shown ++ es.filter (lsShows filters newerThan olderThan)
        totalObjects := s.totalObjects +
          UInt64.ofNat (es.filter (lsCounts filters newerThan olderThan)).length
        totalSize := s.totalSize +
          (SizeAndCount.of (es.filter (lsCounts filters newerThan olderThan))).size } := by
  induction es generalizing s with
  | nil =>
    show s = ⟨s.shown ++ [], s.totalObjects + 0, s.totalSize + 0⟩
    rw [List.append_nil, UInt64.add_zero, Int64.add_zero]
  | cons obj es ih =>
    rw [List.foldl_cons, ih, LsState.take, List.filter_cons, List.filter_cons, lsCounts]
    cases lsShows filters newerThan olderThan obj with
    | false => rfl
    | true =>
      cases obj.typ.isDir with
      | true =>
        show LsState.mk ((s.shown ++ [obj]) ++ _) _ _ = LsState.mk (s.shown ++ obj :: _) _ _
        rw [List.append_assoc]
        rfl
      | false =>
        show LsState.mk ((s.shown ++ [obj]) ++ _) (s.totalObjects + 1 + UInt64.ofNat _)
            (s.totalSize + Int64.ofInt obj.size + Int64.ofInt _) =
          LsState.mk (s.shown ++ obj :: _) (s.totalObjects + UInt64.ofNat (_ + 1))
            (s.totalSize + Int64.ofInt (obj.size + List.sum _))
        rw [List.append_assoc, UInt64.add_assoc, Int64.add_assoc, Int64.ofInt_add,
          Nat.add_comm _ 1, UInt64.ofNat_add]
        rfl

/-- The options under which `ls` adds up what `du` does. -/
structure LsArgs.Measures (ls : LsArgs) (du : DuArgs) (readFile : Str → Except Str Str) : Prop where
  target : ls.target = du.target
  summarize : ls.summarize = true
  versions : ls.allVersions = false ∧ ls.versionId = none ∧ ls.startAfter = none
  bounds : ls.newerThan = none ∧ ls.olderThan = none
  includes : ls.includes = [] ∧ ls.includeFrom = []
  excludes : patternsWithFiles readFile ls.excludes ls.excludeFrom = .ok du.excludes

theorem lsCounts_eq_duCounts {excludes : List Regex} {obj : Object} (h : obj.url.isSome = true) :
    lsCounts ⟨[], excludes⟩ none none obj = duCounts excludes obj := by
  obtain ⟨u, hu⟩ := Option.isSome_iff_exists.mp h
  have hskip : Filters.shouldSkip ⟨[], excludes⟩ (filterKey u) =
      excludes.any (·.isMatch u.relative) := Bool.or_false _
  have hwindow : inWindow none none obj = true := rfl
  rw [lsCounts, lsShows, duCounts, hu, hwindow, Bool.and_true]
  show ((obj.typ.isDir || !Filters.shouldSkip ⟨[], excludes⟩ (filterKey u)) && !obj.typ.isDir) =
    (!obj.typ.isDir && !excludes.any (·.isMatch u.relative))
  rw [hskip]
  cases obj.typ.isDir <;> simp

end Ls

/-- **`du` and `ls --summarize` agree on what there is.** For any remote source, through
either listing API and with pages of any size: `du` prints the sums of the objects that the
source names and no pattern excludes, or with `--group` one line for each storage class that
occurs among them, in order, with the sums of its objects; and `ls --summarize` with the same
patterns, inline or from files, ends with the same number and size. Both fail if the source is
no whole bucket and nothing matches it, and only then. -/
theorem du_ls_agree (du : DuArgs) (env : LsEnv) (ls : LsArgs) (hls : ls.Measures du env.readFile)
    (url : Url) (hurl : Url.parse du.target = .ok url)
    (hversion : du.allVersions = false ∧ du.versionId = none) (hremote : url.isRemote = true)
    (excludes : List Regex) (hexclude : compileGlobs du.excludes = .ok excludes) (s3 : S3)
    (hs3 : env.backend.newS3 url = .ok s3) (enc : Str → Str) (objs : List StoredObject)
    (hserved : ServedWhole enc objs s3 url) :
    let counted := (url.namedObjects objs).filter (duCounts excludes)
    (url.Missing objs → counted = [] ∧ ∃ e e', du.run env.formatSize env.backend = .error e ∧
      ls.run env = ([], .error e')) ∧
    (¬ url.Missing objs → ∃ groups, GroupsOf counted groups ∧
      du.run env.formatSize env.backend = .ok
        (if du.group then groups.map fun g =>
            sizeMessage env.formatSize url.absolute g.1 g.2 du.humanize
          else [sizeMessage env.formatSize url.absolute [] (.of counted) du.humanize]) ∧
      (ls.run env).2 = .ok (some (formatSummary env.formatSize (UInt64.ofNat counted.length)
        (SizeAndCount.of counted).size ls.humanize))) := by
  intro counted
  obtain ⟨hv, hstart⟩ := Url.parse_plain hurl
  obtain ⟨es, hperm, herr, hlist⟩ := hserved.list_cases hv hstart
  have hfiles := files_perm_namedObjects hserved hperm
  -- `du` counts among the files of the listing, and `ls` the same ones
  have hcounted : (es.filter (duCounts excludes)).Perm counted := by
    have hsplit : es.filter (duCounts excludes) =
        (es.filter fun obj => !obj.typ.isDir).filter (duCounts excludes) := by
      rw [List.filter_filter]
      apply List.filter_congr
      intro obj _
      rw [duCounts]
      cases obj.typ.isDir <;> simp
    rw [hsplit]
    exact hfiles.filter _
  have hsame : es.filter (lsCounts ⟨[], excludes⟩ none none) = es.filter (duCounts excludes) := by
    apply List.filter_congr
    intro obj hobj
    apply lsCounts_eq_duCounts
    obtain ⟨it, -, hit⟩ := List.mem_filterMap.mp (hperm.mem_iff.mp hobj)
    cases it with
    | commonPrefix p =>
      obtain ⟨u, -, rfl⟩ := Option.map_eq_some_iff.mp hit
      rfl
    | object o =>
      obtain ⟨u, -, rfl⟩ := Option.map_eq_some_iff.mp hit
      rfl
  have hclient : env.backend.newClient url = .ok (.remote s3) := by
    rw [Backend.newClient, hremote, if_pos rfl, hs3]
    rfl
  have hfilters : Filters.new [] du.excludes = .ok ⟨[], excludes⟩ := by
    rw [Filters.new, hexclude]
    rfl
  have hsum := hls.summarize
  have hrun : ls.run env = ls.list env ⟨[], excludes⟩ none none (s3.list url) := by
    unfold LsArgs.run
    rw [hls.target, hls.versions.1, hls.versions.2.1, hls.versions.2.2, hls.bounds.1, hls.bounds.2,
      hls.includes.1, hls.includes.2, hls.excludes,
      show Url.new du.target { allVersions := false, versionId := none, startAfter := none } =
        .ok url from hurl]
    simp only [LsEnv.parseTimeBound?, patternsWithFiles, hfilters, hclient]
    rfl
  unfold DuArgs.run
  rw [hversion.1, hversion.2, hrun,
    show Url.new du.target { allVersions := false, versionId := none } = .ok url from hurl]
  simp only [hexclude, hclient, Client.list, LsArgs.list, hsum]
  rcases hlist with ⟨hfound, hlist⟩ | ⟨hmissing, rfl, hlist⟩
  · refine ⟨fun hmissing => absurd hmissing hfound, fun _ => ⟨_, DuTotals.groupsOf hcounted, ?_⟩⟩
    rw [hlist, receive_ok herr, receive_ok herr, DuTotals.foldl_take, LsState.foldl_take, hsame]
    simp only [if_true, UInt64.zero_add, Int64.zero_add, hcounted.length_eq,
      SizeAndCount.of_congr hcounted]
    refine ⟨?_, trivial⟩
    cases du.group with
    | true => rfl
    | false =>
      show Except.ok [sizeMessage env.formatSize url.absolute []
        (SizeAndCount.of (es.filter (duCounts excludes))) du.humanize] = _
      rw [SizeAndCount.of_congr hcounted]
      rfl
  · refine ⟨fun _ => ?_, fun hfound => absurd hmissing hfound⟩
    rw [hlist]
    exact ⟨List.nil_perm.mp hcounted, _, _, rfl, rfl⟩

namespace InKeyOrderSample

def lsEnv : LsEnv where
  backend := backend
  now := 0
  rfc3339 _ := .error []
  readFile _ := .ok "*.tmp\n".toList
  formatSize _ := []

def noTmp : List Regex := (compileGlobs ["*.tmp".toList]).toOption.getD []

/-- `ls --summarize --exclude-from f s3://b/x/*`, where `f` excludes `*.tmp`. -/
def summary : LsArgs where
  target := "s3://b/x/*".toList
  summarize := true
  excludeFrom := ["f".toList]

theorem du_ls_agree_two : (summary.run lsEnv).2 = .ok (some "Total objects: 2\nTotal size: 2".toList) := by
  have hfound : ¬ (Url.ofString "s3://b/x/*").Missing objs := by decide +kernel
  obtain ⟨-, hagree⟩ := du_ls_agree { target := "s3://b/x/*".toList, excludes := ["*.tmp".toList] } lsEnv
    summary ⟨rfl, rfl, ⟨rfl, rfl, rfl⟩, ⟨rfl, rfl⟩, ⟨rfl, rfl⟩, by decide +kernel⟩
    (.ofString "s3://b/x/*") (by decide +kernel) ⟨rfl, rfl⟩ (by decide +kernel)
    noTmp (by decide +kernel) s3 rfl urlEncode objs (servedWhole _ (by decide +kernel))
  obtain ⟨groups, -, -, hsummary⟩ := hagree hfound
  rw [hsummary]
  decide +kernel

end InKeyOrderSample

end Rs5cmd
