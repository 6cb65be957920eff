import Rs5cmd.Command.MultiDelete
import Mathlib.Data.List.Perm.Basic

/-!
# What `multi_delete` accounts for

Every URL handed to `multi_delete` should be asked for once and come back once. Its
requests name keys only, a request that fails comes back as one object without a
URL, and in a dry run nothing comes back at all.
-/

namespace Rs5cmd

/-- What a URL names: the bucket, the key and the version. -/
def Url.named (u : Url) : Str × Str × Str := (u.bucket, u.path, u.versionId)

/-- What a request asks to delete. -/
def DeleteRequest.named (r : DeleteRequest) : List (Str × Str × Str) :=
  r.objects.map fun o => (r.bucket, o.key, o.versionId.getD [])

/-- The request is answered, and the answer has the key as deleted. -/
def DeleteRequest.Deletes (server : DeleteServer) (r : DeleteRequest) (key : Str) : Prop :=
  ∃ out, server r = .ok out ∧ some key ∈ out.deleted

/-- Every URL is accounted for: the store is asked to delete what the URLs name, each
once and at most a thousand at a time (in a dry run it is asked nothing), and one
result names each URL, a success only if it was deleted or this is a dry run. -/
structure AccountsFor (dryRun : Bool) (server : DeleteServer) (urls : List Url) : Prop where
  requested : ((multiDelete dryRun server urls).requests.flatMap DeleteRequest.named).Perm
    (if dryRun then [] else urls.map Url.named)
  size : ∀ r ∈ (multiDelete dryRun server urls).requests, r.objects.length ≤ deleteChunkSize
  reported : ((multiDelete dryRun server urls).results.map fun obj => obj.url.map Url.named).Perm
    (urls.map fun u => some u.named)
  succeeded : ∀ obj ∈ (multiDelete dryRun server urls).results, obj.err = none →
    ∀ u, obj.url = some u → dryRun = true ∨
      ∃ r ∈ (multiDelete dryRun server urls).requests, r.Deletes server u.path

section MultiDelete

variable {bucket : Str} {urls : List Url} {server : DeleteServer}

theorem deleteRequest_named (bucket : Str) (batch : List Url) :
    (deleteRequest bucket batch).named = batch.map fun u => (bucket, u.path, []) := by
  rw [DeleteRequest.named, deleteRequest, List.map_map]
  rfl

theorem multiDelete_dryRun (server : DeleteServer) (urls : List Url) :
    (multiDelete true server urls).results = [] := by
  rw [multiDelete, List.flatMap_eq_nil_iff]
  intro batch _
  cases batch <;> rfl

/-- The requests of a run: one for each batch. -/
theorem multiDelete_requests (hurls : ∀ u ∈ urls, u.bucket = bucket) :
    (multiDelete false server urls).requests = (batches urls []).map (deleteRequest bucket) := by
  rw [multiDelete, List.map_eq_flatMap]
  refine List.flatMap_congr fun batch hbatch => ?_
  refine deleteChunk_requests (length_of_mem_batches hbatch (by decide)).1 fun u hu => ?_
  exact hurls u (mem_batches_iff.mpr ⟨batch, hbatch, hu⟩)

/-- **What a run asks the store**: the keys of its URLs, without their versions. -/
theorem multiDelete_named (hurls : ∀ u ∈ urls, u.bucket = bucket) :
    (multiDelete false server urls).requests.flatMap DeleteRequest.named =
      urls.map fun u => (bucket, u.path, []) := by
  rw [multiDelete_requests hurls, List.flatMap_map, ← flatMap_batches]
  exact List.flatMap_congr fun batch _ => deleteRequest_named bucket batch

/-- What the results of an answered batch name: its keys. -/
theorem deleteChunk_reported (hb : Url.BucketName bucket) {batch : List Url} (hne : batch ≠ [])
    (hbucket : ∀ u ∈ batch, u.bucket = bucket) (hserver : ReportsEach server) {out : DeleteOutput}
    (hout : server (deleteRequest bucket batch) = .ok out) :
    ((deleteChunk false server batch).results.map fun obj => obj.url.map Url.named).Perm
      (batch.map fun u => some (bucket, u.path, [])) := by
  have hnames : (deleteChunk false server batch).results.map (fun obj => obj.url.map Url.named) =
      (out.deleted ++ out.errors.map DeleteError.key).map fun key => some (bucket, key.getD [], []) := by
    rw [deleteChunk_answered hb hne hbucket hout, List.map_append, List.map_append, List.map_map,
      List.map_map, List.map_map]
    refine congrArg _ (List.map_congr_left fun e _ => ?_)
    show (entryUrl bucket e.key).map Url.named = _
    rw [entryUrl_eq hb]
    rfl
  have hperm := (hserver _ _ hout).map fun key : Option Str => some (bucket, key.getD [], ([] : Str))
  rw [hnames]
  refine hperm.trans (List.Perm.of_eq ?_)
  rw [deleteRequest, List.map_map, List.map_map]
  rfl

/-- A success among the results of an answered batch is for a key that was deleted. -/
theorem deleteChunk_succeeded (hb : Url.BucketName bucket) {batch : List Url} (hne : batch ≠ [])
    (hbucket : ∀ u ∈ batch, u.bucket = bucket) (hserver : ReportsEach server) {out : DeleteOutput}
    (hout : server (deleteRequest bucket batch) = .ok out) {obj : Object}
    (hobj : obj ∈ (deleteChunk false server batch).results) (herr : obj.err = none) {u : Url}
    (hu : obj.url = some u) : (deleteRequest bucket batch).Deletes server u.path := by
  rw [deleteChunk_answered hb hne hbucket hout] at hobj
  rcases List.mem_append.mp hobj with hobj | hobj
  · obtain ⟨key, hkey, rfl⟩ := List.mem_map.mp hobj
    obtain rfl := Option.some.inj hu
    -- the answer names the keys of the request, so there is a key
    have hmem := (hserver _ _ hout).mem_iff.mp (List.mem_append_left _ hkey)
    obtain ⟨o, -, rfl⟩ := List.mem_map.mp hmem
    exact ⟨out, hout, hkey⟩
  · obtain ⟨e, -, rfl⟩ := List.mem_map.mp hobj
    cases herr

/-- **What `multi_delete` accounts for, exactly.** It asks for each URL and reports
each one iff there is none, or this is no dry run, no URL names a version and every
request is answered. -/
theorem multi_delete_accounts_iff (hb : Url.BucketName bucket)
    (hurls : ∀ u ∈ urls, u.bucket = bucket) (hserver : ReportsEach server) (dryRun : Bool) :
    AccountsFor dryRun server urls ↔ urls = [] ∨ (dryRun = false ∧ (∀ u ∈ urls, u.versionId = []) ∧
      ∀ batch ∈ batches urls [], ∃ out, server (deleteRequest bucket batch) = .ok out) := by
  have hbatch : ∀ batch ∈ batches urls [], batch ≠ [] ∧ ∀ u ∈ batch, u.bucket = bucket := by
    intro batch hbatch
    refine ⟨(length_of_mem_batches hbatch (by decide)).1, fun u hu => ?_⟩
    exact hurls u (mem_batches_iff.mpr ⟨batch, hbatch, hu⟩)
  constructor
  · intro h
    by_cases hnil : urls = []
    · exact .inl hnil
    right
    cases dryRun with
    | true =>
      have hlen := h.reported.length_eq
      rw [multiDelete_dryRun, List.map_nil, List.length_map] at hlen
      exact absurd (List.length_eq_zero_iff.mp hlen.symm) hnil
    | false =>
      refine ⟨rfl, fun u hu => ?_, fun batch hmem => ?_⟩
      · have hreq := h.requested
        rw [multiDelete_named hurls, if_neg Bool.false_ne_true] at hreq
        obtain ⟨v, -, hv⟩ := List.mem_map.mp (hreq.mem_iff.mpr (List.mem_map_of_mem hu))
        simp only [Url.named, Prod.mk.injEq] at hv
        exact hv.2.2.symm
      · cases hout : server (deleteRequest bucket batch) with
        | ok out => exact ⟨out, rfl⟩
        | error e =>
          -- a request that fails leaves a result without a URL
          have hres : Object.withError e ∈ (multiDelete false server urls).results := by
            refine List.mem_flatMap.mpr ⟨batch, hmem, ?_⟩
            rw [deleteChunk_failed (hbatch batch hmem).1 (hbatch batch hmem).2 hout]
            exact List.mem_singleton_self _
          have hnone := h.reported.mem_iff.mp (List.mem_map_of_mem hres)
          obtain ⟨u, -, hu⟩ := List.mem_map.mp hnone
          cases hu
  · rintro (rfl | ⟨rfl, hversions, hanswered⟩)
    · exact ⟨by cases dryRun <;> rfl, by rintro r ⟨⟩, .refl _, by rintro obj ⟨⟩⟩
    · have hnamed : ∀ u ∈ urls, (bucket, u.path, ([] : Str)) = u.named := by
        intro u hu
        rw [Url.named, hurls u hu, hversions u hu]
      refine ⟨?_, ?_, ?_, ?_⟩
      · rw [multiDelete_named hurls, if_neg Bool.false_ne_true, List.map_congr_left hnamed]
      · intro r hr
        rw [multiDelete_requests hurls] at hr
        obtain ⟨batch, hmem, rfl⟩ := List.mem_map.mp hr
        rw [deleteRequest, List.length_map]
        exact (length_of_mem_batches hmem (by decide)).2
      · have hsome : ∀ u ∈ urls, some (bucket, u.path, ([] : Str)) = some u.named :=
          fun u hu => congrArg some (hnamed u hu)
        rw [← List.map_congr_left hsome, ← flatMap_batches, multiDelete, List.map_flatMap]
        refine List.Perm.flatMap_left _ fun batch hmem => ?_
        obtain ⟨out, hout⟩ := hanswered batch hmem
        exact deleteChunk_reported hb (hbatch batch hmem).1 (hbatch batch hmem).2 hserver hout
      · intro obj hobj herr u hu
        obtain ⟨batch, hmem, hobj⟩ := List.mem_flatMap.mp hobj
        obtain ⟨out, hout⟩ := hanswered batch hmem
        refine .inr ⟨deleteRequest bucket batch, ?_, ?_⟩
        · rw [multiDelete_requests hurls]
          exact List.mem_map_of_mem hmem
        · exact deleteChunk_succeeded hb (hbatch batch hmem).1 (hbatch batch hmem).2 hserver hout
            hobj herr hu

end MultiDelete

/-! ## A conforming store -/

/-- A store that refuses some keys and deletes the others. -/
def refusing (refused : List Str) : DeleteServer := fun req =>
  .ok
    { deleted := (req.objects.filter fun o => !refused.contains o.key).map fun o => some o.key
      errors := (req.objects.filter fun o => refused.contains o.key).map fun o => { key := some o.key } }

theorem reportsEach_refusing (refused : List Str) : ReportsEach (refusing refused) := by
  intro req out hout
  obtain rfl := Except.ok.inj hout
  dsimp only
  rw [List.map_map]
  show (((req.objects.filter _).map fun o => some o.key) ++
    (req.objects.filter _).map fun o => some o.key).Perm _
  rw [← List.map_append]
  refine List.Perm.map _ ?_
  exact List.perm_append_comm.trans (List.filter_append_perm _ _)

namespace MultiDeleteSample

/-- The object URL of a key of the bucket `b`, at a version. -/
def url (key versionId : String) : Url :=
  { Url.parsed .remote "s3".toList "b".toList key.toList {} with versionId := versionId.toList }

/-- Two keys, one of them refused. -/
theorem multi_delete_accounts_refused :
    AccountsFor false (refusing ["x".toList]) [url "x" "", url "y" ""] := by
  have hb : Url.BucketName "b".toList := ⟨by decide, by decide, by decide⟩
  refine (multi_delete_accounts_iff hb (by decide) (reportsEach_refusing _) false).mpr
    (.inr ⟨rfl, by decide, ?_⟩)
  intro batch _
  exact ⟨_, rfl⟩

/-- Asked to delete the version `v` of `x`, the store is told to delete `x`. -/
theorem multi_delete_drops_version :
    ReportsEach (refusing []) ∧ ¬ AccountsFor false (refusing []) [url "x" "v"] := by
  refine ⟨reportsEach_refusing [], fun h => ?_⟩
  have hmem := h.requested.mem_iff.mpr (List.mem_singleton_self _)
  revert hmem
  decide +kernel

end MultiDeleteSample

end Rs5cmd
