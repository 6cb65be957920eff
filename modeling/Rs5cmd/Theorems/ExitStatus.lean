import Rs5cmd.Command.CpRun
import Rs5cmd.Command.Rm

/-!
# What a zero exit status means

`cp`, `mv` and `rm` expand a remote source by listing it. Errors of the listing
arrive in band, among the objects, and none of the three commands counts them: a
run is sound iff its listings had no error or it fails for another reason.
-/

namespace Rs5cmd

/-! ## Runs -/

/-- The listing of a remote source, and what the command takes from it. -/
structure Listing where
  objects : List Object
  wanted : Object → Option Url

/-- A run of a command: its remote listings, its operations on objects, whether it
ended before the first operation, and its exit status. -/
structure RunSummary where
  listings : List Listing
  results : List OpReport
  early : Prop
  status : Except StorageError Unit

namespace RunSummary

/-- Every listing ran to its end without an error. -/
def Clean (s : RunSummary) : Prop := ∀ l ∈ s.listings, ∀ obj ∈ l.objects, obj.err = none

/-- The status is `Ok` only if the listings ran to their ends and the operation on
every listed, unfiltered object succeeded. -/
def ExitSound (s : RunSummary) : Prop :=
  s.status = .ok () → s.Clean ∧
    ∀ l ∈ s.listings, ∀ obj ∈ l.objects, ∀ u, l.wanted obj = some u →
      (∃ r ∈ s.results, r.url = some u) ∧ ∀ r ∈ s.results, r.url = some u → r.ok = true

/-- How the status of a run comes about. -/
structure Tracked (s : RunSummary) : Prop where
  early : s.early → ∃ e, s.status = .error e
  status : ¬ s.early → (s.status = .ok () ↔ ∀ r ∈ s.results, r.ok = true)
  operated : ¬ s.early → ∀ l ∈ s.listings, ∀ obj ∈ l.objects, ∀ u, l.wanted obj = some u →
    ∃ r ∈ s.results, r.url = some u

/-- Where only the operations count, soundness is about the listings. -/
theorem Tracked.exitSound_iff {s : RunSummary} (h : s.Tracked) :
    s.ExitSound ↔ s.early ∨ s.Clean ∨ ∃ r ∈ s.results, r.ok = false := by
  constructor
  · intro hsound
    by_cases hearly : s.early
    · exact Or.inl hearly
    · by_cases hall : ∀ r ∈ s.results, r.ok = true
      · exact Or.inr (Or.inl (hsound ((h.status hearly).mpr hall)).1)
      · simp only [not_forall] at hall
        obtain ⟨r, hr, hfailed⟩ := hall
        exact Or.inr (Or.inr ⟨r, hr, by simpa using hfailed⟩)
  · intro hcond hok
    have hearly : ¬ s.early := by
      intro hearly
      obtain ⟨e, he⟩ := h.early hearly
      rw [hok] at he
      cases he
    have hall := (h.status hearly).mp hok
    refine ⟨?_, ?_⟩
    · rcases hcond with hcond | hclean | ⟨r, hr, hfailed⟩
      · exact absurd hcond hearly
      · exact hclean
      · have := hall r hr
        rw [hfailed] at this
        cases this
    · intro l hl obj hobj u hu
      exact ⟨h.operated hearly l hl obj hobj u hu, fun r hr _ => hall r hr⟩

end RunSummary

/-! ## Copies and moves -/

/-- The listing of a source of `cp`, if it is a remote one that expands. -/
def cpListing (b : Backend) (args : CpArgs) (filters : Filters) (raw : Str) : Option Listing :=
  match Url.new raw { versionId := args.versionId, allVersions := args.allVersions } with
  | .error _ => none
  | .ok src =>
    if src.isRemote && (expandsVersions src || isMulti b.fs src) then
      match b.newClient src with
      | .error _ => none
      | .ok client => some
          { objects := client.list src args.followSymlinks
            wanted := if expandsVersions src then keptVersion else keptSource filters }
    else none

def cpSummary (b : Backend) (args : CpArgs) (isMove : Bool) (paths : List Str) (filters : Filters)
    (setup : CpSetup) (results : List ((Url × Url) × TransferResult))
    (status : Except StorageError Unit) : RunSummary where
  listings := paths.dropLast.filterMap (cpListing b args filters)
  results := results.map fun r => ⟨some r.1.1, !r.2.isFailed⟩
  early := (∃ e, cpPairs b args isMove paths filters = .error e) ∨ ∃ e, setup.client = .error e
  status := status

/-- What is wanted of a listing is the source of a pair. -/
theorem mem_expandSources {b : Backend} {args : CpArgs} {filters : Filters} {src dst : Url}
    {pairs : List (Url × Url)}
    (h : expandSources b src dst args.followSymlinks filters = .ok pairs) {client : Client}
    (hclient : b.newClient src = .ok client)
    (hmulti : (expandsVersions src || isMulti b.fs src) = true) {obj : Object}
    (hobj : obj ∈ client.list src args.followSymlinks) {u : Url}
    (hu : (if expandsVersions src then keptVersion else keptSource filters) obj = some u) :
    ∃ pr ∈ pairs, pr.1 = u := by
  unfold expandSources at h
  rw [hclient] at h
  cases hversions : expandsVersions src with
  | true =>
    simp only [hversions, if_true, bind, Except.bind, pure, Except.pure] at h hu
    obtain rfl := Except.ok.inj h
    refine ⟨_, List.mem_map.mpr ⟨u, List.mem_filterMap.mpr ⟨obj, hobj, hu⟩, rfl⟩, rfl⟩
  | false =>
    rw [hversions, Bool.false_or] at hmulti
    simp only [hversions, hmulti, Bool.false_eq_true, if_false, Bool.not_true, bind, Except.bind,
      pure, Except.pure] at h hu
    obtain rfl := Except.ok.inj h
    refine ⟨_, List.mem_map.mpr ⟨u, List.mem_filterMap.mpr ⟨obj, hobj, hu⟩, rfl⟩, rfl⟩

theorem mem_expandAll {b : Backend} {args : CpArgs} {filters : Filters} {dst : Url}
    {raws : List Str} {pairs : List (Url × Url)} (h : expandAll b args dst filters raws = .ok pairs)
    {raw : Str} (hraw : raw ∈ raws) {l : Listing} (hl : cpListing b args filters raw = some l)
    {obj : Object} (hobj : obj ∈ l.objects) {u : Url} (hu : l.wanted obj = some u) :
    ∃ pr ∈ pairs, pr.1 = u := by
  induction raws generalizing pairs with
  | nil => cases hraw
  | cons first raws ih =>
    unfold expandAll at h
    obtain ⟨src, hsrc, h⟩ := Except.bind_eq_ok_iff.mp h
    obtain ⟨expanded, hexp, h⟩ := Except.bind_eq_ok_iff.mp h
    obtain ⟨rest, hrest, h⟩ := Except.bind_eq_ok_iff.mp h
    obtain rfl := Except.ok.inj h
    rcases List.mem_cons.mp hraw with rfl | hraw
    · have hnew : Url.new raw { versionId := args.versionId, allVersions := args.allVersions } =
          .ok src := by
        cases hnew : Url.new raw { versionId := args.versionId, allVersions := args.allVersions } with
        | error e =>
          rw [hnew] at hsrc
          cases hsrc
        | ok v =>
          rw [hnew] at hsrc
          obtain rfl : v = src := Except.ok.inj hsrc
          rfl
      unfold cpListing at hl
      rw [hnew] at hl
      simp only at hl
      split at hl
      · rename_i hmulti
        split at hl
        · cases hl
        · rename_i client hclient
          obtain rfl := Option.some.inj hl
          simp only [Bool.and_eq_true] at hmulti
          obtain ⟨pr, hpr, hfst⟩ := mem_expandSources hexp hclient hmulti.2 hobj hu
          exact ⟨pr, List.mem_append_left _ hpr, hfst⟩
      · cases hl
    · obtain ⟨pr, hpr, hfst⟩ := ih hrest hraw
      exact ⟨pr, List.mem_append_right _ hpr, hfst⟩

theorem expandAll_of_cpPairs {b : Backend} {args : CpArgs} {isMove : Bool} {paths : List Str}
    {filters : Filters} {pairs : List (Url × Url)}
    (h : cpPairs b args isMove paths filters = .ok pairs) :
    ∃ dst, expandAll b args dst filters paths.dropLast = .ok pairs := by
  simp only [cpPairs] at h
  split at h
  · cases h
  · split at h
    · cases h
    · obtain ⟨dst, -, h⟩ := Except.bind_eq_ok_iff.mp h
      split at h
      · cases h
      · split at h
        · cases h
        · exact ⟨dst, h⟩

theorem CpRun.tracked {b : Backend} {args : CpArgs} {isMove : Bool} {paths : List Str}
    {filters : Filters} {setup : CpSetup} {results : List ((Url × Url) × TransferResult)}
    {status : Except StorageError Unit}
    (h : CpRun b args isMove paths filters setup results status) :
    (cpSummary b args isMove paths filters setup results status).Tracked := by
  rcases h.status_ok_iff with ⟨e, rfl, -, hearly⟩ | ⟨pairs, hpairs, hclient, hperm, hstatus⟩
  · exact ⟨fun _ => ⟨e, rfl⟩, fun hnot => absurd hearly hnot, fun hnot => absurd hearly hnot⟩
  · refine ⟨?_, ?_, ?_⟩
    · rintro (⟨e, he⟩ | ⟨e, he⟩)
      · cases hpairs.symm.trans he
      · cases hclient.symm.trans he
    · intro _
      show status = .ok () ↔ ∀ r ∈ results.map fun r => (⟨some r.1.1, !r.2.isFailed⟩ : OpReport),
        r.ok = true
      rw [hstatus, List.forall_mem_map]
      refine forall₂_congr fun r _ => ?_
      simp
    · intro _ l hl obj hobj u hu
      obtain ⟨raw, hraw, hl⟩ := List.mem_filterMap.mp hl
      obtain ⟨dst, hexp⟩ := expandAll_of_cpPairs hpairs
      obtain ⟨pr, hpr, rfl⟩ := mem_expandAll hexp hraw hl hobj hu
      obtain ⟨r, hr, rfl⟩ := List.mem_map.mp (hperm.mem_iff.mpr hpr)
      exact ⟨⟨some r.1.1, !r.2.isFailed⟩, List.mem_map.mpr ⟨r, hr, rfl⟩, rfl⟩

/-! ## Removals -/

/-- The reports of the targets of a run that gets through them. -/
def rmReports (b : Backend) (del : Deletions) (args : RmArgs) (filters : Filters) :
    List TargetReport :=
  (rmTargets b del args filters args.targets).toOption.getD []

def rmSummary (b : Backend) (del : Deletions) (args : RmArgs) (filters : Filters) : RunSummary where
  listings := (rmReports b del args filters).filterMap fun r =>
    r.listing.map fun objs => { objects := objs, wanted := fedUrl filters }
  results := (rmReports b del args filters).flatMap TargetReport.results
  early := ∃ e, rmTargets b del args filters args.targets = .error e
  status := rmRun b del args filters

theorem rmSummary_tracked (b : Backend) (del : Deletions) (args : RmArgs) (filters : Filters) :
    (rmSummary b del args filters).Tracked := by
  cases htargets : rmTargets b del args filters args.targets with
  | error e =>
    have hearly : (rmSummary b del args filters).early := ⟨e, htargets⟩
    refine ⟨fun _ => ⟨e, ?_⟩, fun hnot => absurd hearly hnot, fun hnot => absurd hearly hnot⟩
    show rmRun b del args filters = .error e
    rw [rmRun, htargets]
  | ok reports =>
    have hreports : rmReports b del args filters = reports := by
      rw [rmReports, htargets]
      rfl
    have hmem := fun r (hr : r ∈ reports) => rmTarget_of_mem htargets hr
    refine ⟨?_, ?_, ?_⟩
    · rintro ⟨e, he⟩
      cases htargets.symm.trans he
    · intro _
      show rmRun b del args filters = .ok () ↔
        ∀ r ∈ (rmReports b del args filters).flatMap TargetReport.results, r.ok = true
      rw [rmRun, htargets, hreports]
      simp only
      rw [ite_any_eq_ok_iff]
      constructor
      · intro hall r hr
        obtain ⟨report, hreport, hr⟩ := List.mem_flatMap.mp hr
        obtain ⟨target, -, htarget⟩ := hmem report hreport
        have hnone := hall report hreport
        rw [(rmTarget_hadError htarget).1] at hnone
        simpa using List.any_eq_false.mp hnone r hr
      · intro hall report hreport
        obtain ⟨target, -, htarget⟩ := hmem report hreport
        rw [(rmTarget_hadError htarget).1, List.any_eq_false]
        intro r hr
        simp [hall r (List.mem_flatMap.mpr ⟨report, hreport, hr⟩)]
    · intro _ l hl obj hobj u hu
      have hl' : l ∈ reports.filterMap fun r =>
          r.listing.map fun objs => { objects := objs, wanted := fedUrl filters } := hreports ▸ hl
      obtain ⟨report, hreport, hl'⟩ := List.mem_filterMap.mp hl'
      obtain ⟨objs, hobjs, rfl⟩ := Option.map_eq_some_iff.mp hl'
      obtain ⟨target, -, htarget⟩ := hmem report hreport
      have hremote := (rmTarget_hadError htarget).2 objs hobjs
      obtain ⟨r, hr, hurl⟩ := mem_rmRemote_results hobj hu
      rw [← hremote] at hr
      refine ⟨r, ?_, hurl⟩
      show r ∈ (rmReports b del args filters).flatMap TargetReport.results
      rw [hreports]
      exact List.mem_flatMap.mpr ⟨report, hreport, hr⟩

/-! ## All three commands -/

/-- A run of one of the commands. -/
inductive CommandRun : RunSummary → Prop where
  | cp {b : Backend} {args : CpArgs} {isMove : Bool} {paths : List Str} {filters : Filters}
      {setup : CpSetup} {results : List ((Url × Url) × TransferResult)}
      {status : Except StorageError Unit}
      (h : CpRun b args isMove paths filters setup results status) :
      CommandRun (cpSummary b args isMove paths filters setup results status)
  | rm (b : Backend) (del : Deletions) (args : RmArgs) (filters : Filters) :
      CommandRun (rmSummary b del args filters)

/-- **Exit status soundness, exactly.** The status of a run is sound iff the run
ended before its first operation, or none of its remote listings had an error, or
some operation failed. -/
theorem exit_status_sound_iff (s : RunSummary) (h : CommandRun s) :
    s.ExitSound ↔ s.early ∨ s.Clean ∨ ∃ r ∈ s.results, r.ok = false := by
  cases h with
  | cp h => exact h.tracked.exitSound_iff
  | rm b del args filters => exact (rmSummary_tracked b del args filters).exitSound_iff

/-! ## Concrete runs -/

/-- Deletions that all succeed. -/
def Deletions.allOk : Deletions where
  delete _ := .ok ()
  deleteObjects _ := .ok fun _ => none

def accessDenied : StorageError := .msg "AccessDenied".toList

/-- The first page of `s3://b/*` fails. -/
def failedRm : RunSummary :=
  rmSummary (.ofPages [.error accessDenied]) .allOk { targets := ["s3://b/*".toList] } noFilters

def failedCp : RunSummary :=
  cpSummary (.ofPages [.error accessDenied]) {} false ["s3://b/*".toList, "out/".toList] noFilters {}
    [] (.ok ())

theorem cpRun_failedCp :
    CpRun (.ofPages [.error accessDenied]) {} false ["s3://b/*".toList, "out/".toList] noFilters {}
      [] (.ok ()) :=
  CpRun.transferred (show cpPairs _ _ _ _ _ = .ok [] by decide +kernel) rfl rfl
    (show Machine.run _ _ [] = some { todo := [], acc := false } from rfl) ⟨rfl, Or.inl rfl⟩

/-- When the only page of the listing fails, `cp` copies nothing, `rm` removes
nothing, and both return `Ok`. -/
theorem exit_status_unsound :
    (CommandRun failedCp ∧ ¬ failedCp.ExitSound) ∧ CommandRun failedRm ∧ ¬ failedRm.ExitSound := by
  refine ⟨⟨.cp cpRun_failedCp, ?_⟩, .rm _ _ _ _, ?_⟩
  · intro h
    have hclean := (h rfl).1
    have hex : ∃ l ∈ failedCp.listings, ∃ obj ∈ l.objects, obj.err = some accessDenied := by
      decide +kernel
    obtain ⟨l, hl, obj, hobj, herr⟩ := hex
    cases (hclean l hl obj hobj).symm.trans herr
  · intro h
    have hclean := (h (by decide +kernel)).1
    have hex : ∃ l ∈ failedRm.listings, ∃ obj ∈ l.objects, obj.err = some accessDenied := by
      decide +kernel
    obtain ⟨l, hl, obj, hobj, herr⟩ := hex
    cases (hclean l hl obj hobj).symm.trans herr

/-- Two objects are listed and removed. -/
def cleanRm : RunSummary :=
  rmSummary (.ofPages [.ok { contents := [{ key := some "x".toList }, { key := some "y".toList }] }])
    .allOk { targets := ["s3://b/*".toList] } noFilters

/-- Removing the two objects of a bucket ends with a sound `Ok`. -/
theorem exit_status_sound_clean :
    cleanRm.status = .ok () ∧ cleanRm.results.length = 2 ∧ cleanRm.ExitSound := by
  refine ⟨by decide +kernel, by decide +kernel, ?_⟩
  refine (exit_status_sound_iff cleanRm (.rm _ _ _ _)).mpr (Or.inr (Or.inl ?_))
  show ∀ l ∈ cleanRm.listings, ∀ obj ∈ l.objects, obj.err = none
  decide +kernel

end Rs5cmd
