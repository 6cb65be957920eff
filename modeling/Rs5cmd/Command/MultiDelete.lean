import Rs5cmd.Command.Rm

/-!
# Batched deletions (`storage/s3.rs`)

`multi_delete` sends the keys of its URLs to the store in DeleteObjects requests of
at most a thousand, and an object for every entry of the answers, found again by its
key. What the store answers is a parameter.
-/

namespace Rs5cmd

/-! ## Requests and answers -/

/-- `ObjectIdentifier`. -/
structure ObjectIdentifier where
  key : Str
  versionId : Option Str := none
  deriving DecidableEq, Repr

/-- A DeleteObjects request. -/
structure DeleteRequest where
  bucket : Str
  objects : List ObjectIdentifier
  deriving DecidableEq, Repr

/-- An entry of the errors of an answer. -/
structure DeleteError where
  key : Option Str
  message : Option Str := none
  deriving DecidableEq, Repr

/-- The answer to a DeleteObjects request: the keys deleted, and the errors. -/
structure DeleteOutput where
  deleted : List (Option Str) := []
  errors : List DeleteError := []
  deriving DecidableEq, Repr

/-- What the store makes of each request. -/
abbrev DeleteServer := DeleteRequest → Except StorageError DeleteOutput

/-- What a deletion sends: requests to the store and objects to the channel. -/
structure DeleteRun where
  requests : List DeleteRequest := []
  results : List Object := []

/-! ## `multi_delete` -/

/-- The request for a batch: the builder is given the key of each URL. -/
def deleteRequest (bucket : Str) (urls : List Url) : DeleteRequest where
  bucket := bucket
  objects := urls.map fun u => { key := u.path }

/-- The URL an entry of an answer is reported under. -/
def entryUrl (bucket : Str) (key : Option Str) : Option Url :=
  (Url.parse ("s3://".toList ++ (bucket ++ '/' :: key.getD []))).toOption

/-- What is sent for a deleted key. -/
def deletedResult (bucket : Str) (key : Option Str) : Option Object :=
  (entryUrl bucket key).map fun u => { url := some u }

/-- What is sent for an error. -/
def errorResult (bucket : Str) (e : DeleteError) : Object where
  url := entryUrl bucket e.key
  err := some (.msg (e.message.getD "delete failed".toList))

/-- `delete_chunk`. -/
def deleteChunk (dryRun : Bool) (server : DeleteServer) : List Url → DeleteRun
  | [] => {}
  | first :: rest =>
    -- the sends of a dry run are not awaited, so they never happen
    if dryRun then {}
    else
      let req := deleteRequest first.bucket (first :: rest)
      match server req with
      | .error e => { requests := [req], results := [Object.withError e] }
      | .ok out =>
        { requests := [req]
          results := out.deleted.filterMap (deletedResult first.bucket) ++
            out.errors.map (errorResult first.bucket) }

/-- `multi_delete`: a batch is sent when it is full, and the last one at the end. -/
def multiDelete (dryRun : Bool) (server : DeleteServer) (urls : List Url) : DeleteRun where
  requests := (batches urls []).flatMap fun batch => (deleteChunk dryRun server batch).requests
  results := (batches urls []).flatMap fun batch => (deleteChunk dryRun server batch).results

/-- The store reports every key of a request once, as deleted or as an error. -/
def ReportsEach (server : DeleteServer) : Prop :=
  ∀ req out, server req = .ok out →
    (out.deleted ++ out.errors.map DeleteError.key).Perm (req.objects.map fun o => some o.key)

/-! ## Batches -/

/-- A batch is neither empty nor larger than a request may be. -/
theorem length_of_mem_batches {urls batch b : List Url} (hb : b ∈ batches urls batch)
    (hroom : batch.length < deleteChunkSize) : b ≠ [] ∧ b.length ≤ deleteChunkSize := by
  induction urls generalizing batch with
  | nil =>
    unfold batches at hb
    split at hb
    · cases hb
    · rename_i hne
      obtain rfl := List.mem_singleton.mp hb
      exact ⟨by simpa using hne, Nat.le_of_lt hroom⟩
  | cons u urls ih =>
    unfold batches at hb
    split at hb
    · rcases List.mem_cons.mp hb with rfl | hb
      · refine ⟨by simp, ?_⟩
        rw [List.length_append, List.length_singleton]
        exact hroom
      · exact ih hb (by decide)
    · rename_i hfits
      exact ih hb (Nat.lt_of_not_le hfits)

/-- The batches of `multi_delete` are its URLs, in order. -/
theorem flatten_batches_nil (urls : List Url) : (batches urls []).flatten = urls :=
  flatten_batches urls []

theorem flatMap_batches {α : Type} (urls : List Url) (f : Url → α) :
    ((batches urls []).flatMap fun batch => batch.map f) = urls.map f := by
  rw [List.flatMap_def, ← List.map_flatten, flatten_batches_nil]

/-- Each URL is in a batch, and nothing else is. -/
theorem mem_batches_iff {urls : List Url} {u : Url} : u ∈ urls ↔ ∃ b ∈ batches urls [], u ∈ b := by
  rw [← List.mem_flatten, flatten_batches_nil]

/-! ## One batch -/

section Chunk

variable {server : DeleteServer} {bucket : Str} {batch : List Url}

theorem entryUrl_eq (hb : Url.BucketName bucket) (key : Option Str) :
    entryUrl bucket key = some (Url.parsed .remote "s3".toList bucket (key.getD []) {}) := by
  rw [entryUrl, Url.parse_remote hb]
  rfl

/-- What a batch asks the store. -/
theorem deleteChunk_requests (hne : batch ≠ []) (hbucket : ∀ u ∈ batch, u.bucket = bucket) :
    (deleteChunk false server batch).requests = [deleteRequest bucket batch] := by
  cases batch with
  | nil => exact absurd rfl hne
  | cons first rest =>
    rw [deleteChunk, if_neg Bool.false_ne_true, hbucket first List.mem_cons_self]
    dsimp only
    split <;> rfl

/-- What a batch sends when its request fails. -/
theorem deleteChunk_failed (hne : batch ≠ []) (hbucket : ∀ u ∈ batch, u.bucket = bucket)
    {e : StorageError} (hserver : server (deleteRequest bucket batch) = .error e) :
    (deleteChunk false server batch).results = [Object.withError e] := by
  cases batch with
  | nil => exact absurd rfl hne
  | cons first rest =>
    rw [deleteChunk, if_neg Bool.false_ne_true, hbucket first List.mem_cons_self]
    simp only [hserver]

/-- What a batch sends when its request is answered: an object for each entry. -/
theorem deleteChunk_answered (hb : Url.BucketName bucket) (hne : batch ≠ [])
    (hbucket : ∀ u ∈ batch, u.bucket = bucket) {out : DeleteOutput}
    (hserver : server (deleteRequest bucket batch) = .ok out) :
    (deleteChunk false server batch).results =
      (out.deleted.map fun key =>
        ({ url := some (Url.parsed .remote "s3".toList bucket (key.getD []) {}) } : Object)) ++
      out.errors.map (errorResult bucket) := by
  have hdeleted : out.deleted.filterMap (deletedResult bucket) = out.deleted.map fun key =>
      ({ url := some (Url.parsed .remote "s3".toList bucket (key.getD []) {}) } : Object) := by
    rw [← List.filterMap_eq_map]
    refine List.filterMap_congr fun key _ => ?_
    rw [deletedResult, entryUrl_eq hb]
    rfl
  cases batch with
  | nil => exact absurd rfl hne
  | cons first rest =>
    rw [deleteChunk, if_neg Bool.false_ne_true, hbucket first List.mem_cons_self]
    simp only [hserver, hdeleted]

end Chunk

/-! ## The deletions of `rm` -/

/-- The message of the error that an answer has for a URL, if any. -/
def DeleteOutput.errorOf (out : DeleteOutput) (u : Url) : Option Str :=
  (out.errors.find? fun e => e.key == some u.path).map fun e => e.message.getD "delete failed".toList

/-- The outcome of each deletion, from what the store answers. -/
def Deletions.ofServer (dryRun : Bool) (delete : Url → Except StorageError Unit)
    (server : DeleteServer) : Deletions where
  dryRun := dryRun
  delete := delete
  deleteObjects urls := (server (deleteRequest ((urls.head?.map Url.bucket).getD []) urls)).map
    DeleteOutput.errorOf

/-- An error is sent for a batch just when `rm` sees a deletion of it fail. -/
theorem any_deleteChunk_ofServer {server : DeleteServer} (hserver : ReportsEach server)
    (dryRun : Bool) (delete : Url → Except StorageError Unit) (batch : List Url) :
    ((Deletions.ofServer dryRun delete server).deleteChunk batch).any (fun obj => obj.err.isSome) =
      (deleteChunk dryRun server batch).results.any fun obj => obj.err.isSome := by
  rw [Deletions.any_deleteChunk]
  cases batch with
  | nil => rfl
  | cons first rest =>
    cases dryRun with
    | true => simp [Deletions.deleted, Deletions.ofServer, deleteChunk]
    | false =>
      cases hout : server (deleteRequest first.bucket (first :: rest)) with
      | error e =>
        simp [Deletions.deleted, Deletions.ofServer, deleteChunk, hout, Except.map, Object.withError]
      | ok out =>
        have hdeleted : ((out.deleted.filterMap (deletedResult first.bucket)).any fun obj =>
            obj.err.isSome) = false := by
          rw [List.any_eq_false]
          intro obj hobj
          obtain ⟨key, -, hkey⟩ := List.mem_filterMap.mp hobj
          obtain ⟨u, -, rfl⟩ := Option.map_eq_some_iff.mp hkey
          simp
        have herrors : ((out.errors.map (errorResult first.bucket)).any fun obj => obj.err.isSome) =
            !out.errors.isEmpty := by
          cases out.errors <;> rfl
        -- the errors of an answer are for keys of the request
        have hurls : ((first :: rest).any fun u => (out.errorOf u).isSome) = !out.errors.isEmpty := by
          cases herr : out.errors with
          | nil => simp [DeleteOutput.errorOf, herr]
          | cons e errors =>
            have hmem : e.key ∈ out.deleted ++ out.errors.map DeleteError.key := by simp [herr]
            obtain ⟨o, ho, hkey⟩ := List.mem_map.mp ((hserver _ _ hout).mem_iff.mp hmem)
            obtain ⟨u, hu, rfl⟩ := List.mem_map.mp ho
            refine List.any_eq_true.mpr ⟨u, hu, ?_⟩
            rw [DeleteOutput.errorOf, Option.isSome_map, List.find?_isSome]
            exact ⟨e, by simp [herr], by simp [← hkey]⟩
        rw [deleteChunk, if_neg Bool.false_ne_true]
        simp only [hout, List.any_append, hdeleted, herrors, Bool.false_or, ← hurls]
        refine congrArg (List.any _) (funext fun u => ?_)
        simp only [Deletions.deleted, Deletions.ofServer, List.head?_cons, Option.map_some,
          Option.getD_some, hout, Except.map, Bool.false_or]
        cases out.errorOf u <;> rfl

/-- **`rm` sees an error just when `multi_delete` sends one.** -/
theorem rmRemote_hadError_ofServer {server : DeleteServer} (hserver : ReportsEach server)
    (dryRun : Bool) (delete : Url → Except StorageError Unit) (filters : Filters)
    (objs : List Object) :
    (rmRemote (Deletions.ofServer dryRun delete server) filters objs).hadError =
      (multiDelete dryRun server (objs.filterMap (fedUrl filters))).results.any
        fun obj => obj.err.isSome := by
  simp only [rmRemote, multiDelete, List.any_flatMap]
  refine congrArg (batches _ []).any (funext fun batch => ?_)
  exact any_deleteChunk_ofServer hserver dryRun delete batch

end Rs5cmd
