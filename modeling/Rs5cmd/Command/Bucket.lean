import Rs5cmd.Command.MultiDelete

/-!
# Removing a bucket (`command/bucket.rs`)

`rb` removes a bucket; with `--force` it first lists the bucket and feeds what the
listing names to `multi_delete`.
-/

namespace Rs5cmd

structure RbArgs where
  bucket : Str
  force : Bool := false

/-- `bucket_name`. -/
def bucketName (arg : Str) : Except StorageError (Url × Str) :=
  match Url.parse arg with
  | .error e => .error (.msg e)
  | .ok url =>
    if !url.isRemote || !url.isBucket then
      .error (.msg ("expected a bucket URL like s3://bucket-name, got ".toList ++ debugStr arg))
    else .ok (url, url.bucket)

/-- What `rb` meets: how its client comes out, and what the store makes of its
requests. -/
structure RbEnv where
  newS3 : Url → Except StorageError S3
  dryRun : Bool := false
  deleteObjects : DeleteServer
  deleteBucket : Except StorageError Unit := .ok ()

/-- What a run of `rb` sent: its DeleteObjects requests and then, if `removed`, the
request to delete the bucket. -/
structure RbRun where
  requests : List DeleteRequest := []
  removed : Bool := false
  result : Except StorageError Unit

/-- The rest of `run_rb`, once the client is there: the feeder forwards every URL of
the listing, and a failed deletion ends the run. -/
def emptyAndRemove (env : RbEnv) (force : Bool) (listing : List Object) : RbRun :=
  let deletion :=
    if force then multiDelete env.dryRun env.deleteObjects (listing.filterMap Object.url) else {}
  if deletion.results.any fun obj => obj.err.isSome then
    { requests := deletion.requests
      result := .error (.msg "rb --force: one or more object deletions failed".toList) }
  else
    { requests := deletion.requests
      removed := !env.dryRun
      result := if env.dryRun then .ok () else env.deleteBucket }

/-- `run_rb`. -/
def runRb (env : RbEnv) (args : RbArgs) : RbRun :=
  match bucketName args.bucket with
  | .error e => { result := .error e }
  | .ok (url, _) =>
    match env.newS3 url with
    | .error e => { result := .error e }
    | .ok s3 => emptyAndRemove env args.force (s3.list url)

/-- A bucket URL is the bucket's name alone. -/
theorem bucketName_eq_ok {arg : Str} {url : Url} {name : Str}
    (h : bucketName arg = .ok (url, name)) :
    Url.BucketName name ∧ url = Url.parsed .remote "s3".toList name [] {} := by
  unfold bucketName at h
  split at h
  · cases h
  · rename_i u hu
    split at h
    · cases h
    · rename_i hbucket
      obtain ⟨rfl, rfl⟩ := Prod.mk.inj (Except.ok.inj h)
      obtain ⟨hrem, hbucket⟩ : u.isRemote = true ∧ u.isBucket = true := by simpa using hbucket
      obtain ⟨hparsed, hb⟩ := Url.remote_of_new rfl hu hrem
      have hpath : u.path = [] := by
        rw [Url.isBucket, hrem, Bool.true_and, List.isEmpty_iff] at hbucket
        exact hbucket
      rw [hpath] at hparsed
      exact ⟨hb, hparsed⟩

end Rs5cmd
