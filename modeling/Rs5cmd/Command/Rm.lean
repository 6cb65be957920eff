import Rs5cmd.Command.Filters
import Rs5cmd.Lib.Hoare

/-!
# Removing objects (`command/rm.rs`, `multi_delete`)

A target that expands is listed; on a remote one a feeder forwards the listed URLs
that pass the filters to `multi_delete`, which removes them in batches. The run
fails if it saw an error. What the deletions come to is a parameter.
-/

namespace Rs5cmd

structure RmArgs where
  targets : List Str
  versionId : Option Str := none
  raw : Bool := false

/-- The outcome of each deletion. For a batch it is an error of the whole request
or, for each of its URLs, `none` or the message of an error. -/
structure Deletions where
  dryRun : Bool := false
  delete : Url → Except StorageError Unit
  deleteObjects : List Url → Except StorageError (Url → Option Str)

/-- `DELETE_CHUNK_SIZE`. -/
def deleteChunkSize : Nat := 1000

/-- The batches of `multi_delete`, with the one being filled. -/
def batches : List Url → List Url → List (List Url)
  | [], batch => if batch.isEmpty then [] else [batch]
  | u :: urls, batch =>
    if deleteChunkSize ≤ (batch ++ [u]).length then (batch ++ [u]) :: batches urls []
    else batches urls (batch ++ [u])

namespace Deletions

/-- The URL a result is reported under. -/
def reportedUrl (bucket : Str) (u : Url) : Option Url :=
  (Url.parse ("s3://".toList ++ bucket ++ '/' :: u.path)).toOption

/-- `delete_chunk`: what is sent for one batch. Under `--dry-run` the sends are
not awaited, so nothing is. -/
def deleteChunk (del : Deletions) (urls : List Url) : List Object :=
  match urls with
  | [] => []
  | first :: _ =>
    if del.dryRun then []
    else
      match del.deleteObjects urls with
      | .error e => [Object.withError e]
      | .ok answer =>
        ((urls.filter fun u => (answer u).isNone).filterMap fun u =>
          (reportedUrl first.bucket u).map fun v => { url := some v }) ++
        urls.filterMap fun u => (answer u).map fun m =>
          { url := reportedUrl first.bucket u, err := some (.msg m) }

/-- Whether the deletion of `u` in the batch `urls` went through. -/
def deleted (del : Deletions) (urls : List Url) (u : Url) : Bool :=
  del.dryRun ||
    match del.deleteObjects urls with
    | .error _ => false
    | .ok answer => (answer u).isNone

end Deletions

/-- What the feeder forwards of a listing: a URL that is not filtered out. Errors
have none. -/
def fedUrl (filters : Filters) (obj : Object) : Option Url :=
  match obj.url with
  | none => none
  | some u => if filters.shouldSkip (filterKey u) then none else some u

/-- An operation of a run: the object it was for and whether it succeeded. -/
structure OpReport where
  url : Option Url
  ok : Bool
  deriving DecidableEq, Repr

/-- What was done for one target: the remote listing, the operations, and whether
an error was seen. -/
structure TargetReport where
  listing : Option (List Object) := none
  results : List OpReport
  hadError : Bool

/-- The target expands. -/
def rmExpands (url : Url) : Bool := !url.raw && (url.isWildcard || (url.isRemote && url.isPrefix))

def isOkResult : Except StorageError Unit → Bool
  | .ok () => true
  | .error _ => false

/-- A listed local object: an error counts, an unfiltered file is deleted. -/
def rmLocal (del : Deletions) (filters : Filters) (obj : Object) : Option OpReport :=
  match obj.err with
  | some _ => some ⟨none, false⟩
  | none => (fedUrl filters obj).map fun u => ⟨some u, isOkResult (del.delete u)⟩

/-- A remote target that expands. -/
def rmRemote (del : Deletions) (filters : Filters) (objs : List Object) : TargetReport :=
  let chunks := batches (objs.filterMap (fedUrl filters)) []
  { listing := some objs
    results := chunks.flatMap fun urls => urls.map fun u => ⟨some u, del.deleted urls u⟩
    hadError := (chunks.flatMap del.deleteChunk).any fun obj => obj.err.isSome }

/-- One iteration of the loop over the targets. -/
def rmTarget (b : Backend) (del : Deletions) (args : RmArgs) (filters : Filters) (target : Str) :
    Except StorageError TargetReport := do
  let url ← (Url.new target { raw := args.raw, versionId := args.versionId }).mapError StorageError.msg
  let client ← b.newClient url
  if !rmExpands url then
    let ok := isOkResult (del.delete url)
    return { results := [⟨some url, ok⟩], hadError := !ok }
  else if url.isRemote then return rmRemote del filters (client.list url true)
  else
    let results := (client.list url true).filterMap (rmLocal del filters)
    return { results := results, hadError := results.any fun r => !r.ok }

/-- The targets one by one. A bad one ends the run. -/
def rmTargets (b : Backend) (del : Deletions) (args : RmArgs) (filters : Filters) :
    List Str → Except StorageError (List TargetReport)
  | [] => .ok []
  | target :: targets => do
    let report ← rmTarget b del args filters target
    let reports ← rmTargets b del args filters targets
    return report :: reports

/-- `run`. -/
def rmRun (b : Backend) (del : Deletions) (args : RmArgs) (filters : Filters) :
    Except StorageError Unit :=
  match rmTargets b del args filters args.targets with
  | .error e => .error e
  | .ok reports =>
    if reports.any fun r => r.hadError then .error (.msg "one or more rm operations failed".toList)
    else .ok ()

/-! ## Batches -/

theorem flatten_batches (urls batch : List Url) : (batches urls batch).flatten = batch ++ urls := by
  induction urls generalizing batch with
  | nil => cases batch <;> simp [batches]
  | cons u urls ih =>
    unfold batches
    split
    · rw [List.flatten_cons, ih]
      simp
    · rw [ih]
      simp

/-- An error is sent for a batch iff some deletion of it failed. -/
theorem Deletions.any_deleteChunk (del : Deletions) (urls : List Url) :
    ((del.deleteChunk urls).any fun obj => obj.err.isSome) = urls.any fun u => !del.deleted urls u := by
  cases urls with
  | nil => rfl
  | cons first rest =>
    cases hdry : del.dryRun with
    | true => simp [deleteChunk, deleted, hdry]
    | false =>
      cases hans : del.deleteObjects (first :: rest) with
      | error e => simp [deleteChunk, deleted, hdry, hans, Object.withError]
      | ok answer =>
        -- nothing is wrong with what was deleted
        have hok : (((first :: rest).filter fun u => (answer u).isNone).filterMap fun u =>
            (reportedUrl first.bucket u).map fun v => ({ url := some v } : Object)).any
              (fun obj => obj.err.isSome) = false := by
          rw [List.any_eq_false]
          intro obj hobj
          obtain ⟨u, -, hu⟩ := List.mem_filterMap.mp hobj
          obtain ⟨v, -, rfl⟩ := Option.map_eq_some_iff.mp hu
          simp
        have herr : ((first :: rest).filterMap fun u => (answer u).map fun m =>
            ({ url := reportedUrl first.bucket u, err := some (.msg m) } : Object)).any
              (fun obj => obj.err.isSome) = (first :: rest).any fun u => !(answer u).isNone := by
          rw [List.any_filterMap]
          refine congrArg (first :: rest).any (funext fun u => ?_)
          cases answer u <;> rfl
        simp only [deleteChunk, deleted, hdry, hans, Bool.false_eq_true, if_false, Bool.false_or,
          List.any_append, hok, herr]

/-- **What an expanded remote target reports**: an error iff a deletion failed.
Nothing is said of the listing. -/
theorem rmRemote_hadError (del : Deletions) (filters : Filters) (objs : List Object) :
    (rmRemote del filters objs).hadError = (rmRemote del filters objs).results.any fun r => !r.ok := by
  simp only [rmRemote, List.any_flatMap, List.any_map, Function.comp_def]
  refine congrArg (batches _ []).any (funext fun urls => ?_)
  exact del.any_deleteChunk urls

/-- Each unfiltered URL of the listing is operated on. -/
theorem mem_rmRemote_results {del : Deletions} {filters : Filters} {objs : List Object} {obj : Object}
    (hobj : obj ∈ objs) {u : Url} (hu : fedUrl filters obj = some u) :
    ∃ r ∈ (rmRemote del filters objs).results, r.url = some u := by
  have hmem : u ∈ (batches (objs.filterMap (fedUrl filters)) []).flatten := by
    rw [flatten_batches, List.nil_append]
    exact List.mem_filterMap.mpr ⟨obj, hobj, hu⟩
  obtain ⟨urls, hurls, hu⟩ := List.mem_flatten.mp hmem
  refine ⟨⟨some u, del.deleted urls u⟩, ?_, rfl⟩
  exact List.mem_flatMap.mpr ⟨urls, hurls, List.mem_map.mpr ⟨u, hu, rfl⟩⟩

/-- What one target reports, whichever way it goes. -/
theorem rmTarget_hadError {b : Backend} {del : Deletions} {args : RmArgs} {filters : Filters}
    {target : Str} {report : TargetReport} (h : rmTarget b del args filters target = .ok report) :
    report.hadError = (report.results.any fun r => !r.ok) ∧
      ∀ objs, report.listing = some objs → report = rmRemote del filters objs := by
  unfold rmTarget at h
  obtain ⟨url, -, h⟩ := Except.bind_eq_ok_iff.mp h
  obtain ⟨client, -, h⟩ := Except.bind_eq_ok_iff.mp h
  split at h
  · obtain rfl := Except.ok.inj h
    refine ⟨by simp, ?_⟩
    intro objs hobjs
    cases hobjs
  · split at h
    · obtain rfl := Except.ok.inj h
      refine ⟨rmRemote_hadError _ _ _, ?_⟩
      intro objs hobjs
      obtain rfl := Option.some.inj hobjs
      rfl
    · obtain rfl := Except.ok.inj h
      refine ⟨rfl, ?_⟩
      intro objs hobjs
      cases hobjs

theorem rmTarget_of_mem {b : Backend} {del : Deletions} {args : RmArgs} {filters : Filters}
    {targets : List Str} {reports : List TargetReport}
    (h : rmTargets b del args filters targets = .ok reports) {report : TargetReport}
    (hmem : report ∈ reports) : ∃ target ∈ targets, rmTarget b del args filters target = .ok report := by
  induction targets generalizing reports with
  | nil =>
    obtain rfl := Except.ok.inj h
    cases hmem
  | cons target targets ih =>
    unfold rmTargets at h
    obtain ⟨first, hfirst, h⟩ := Except.bind_eq_ok_iff.mp h
    obtain ⟨rest, hrest, h⟩ := Except.bind_eq_ok_iff.mp h
    obtain rfl := Except.ok.inj h
    rcases List.mem_cons.mp hmem with rfl | hmem
    · exact ⟨target, List.mem_cons_self, hfirst⟩
    · obtain ⟨t, ht, hreport⟩ := ih hrest hmem
      exact ⟨t, List.mem_cons_of_mem _ ht, hreport⟩

end Rs5cmd
