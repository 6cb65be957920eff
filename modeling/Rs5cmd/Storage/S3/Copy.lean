import Rs5cmd.Storage.S3.UploadSpec

/-!
# Copies (`storage/s3.rs`)

A remote object is copied by the store, with one CopyObject or, for a source that
is too large for that, with a multipart upload whose parts the store copies; or by
the client, which downloads it to a temporary file and uploads that.

A multipart upload has the same shape wherever it is made: it is created, its parts
are sent, and it is completed or, when a part fails, aborted.
-/

namespace Rs5cmd

/-! ## Multipart uploads -/

/-- What a multipart upload comes to, and whether it was asked to be aborted. -/
structure MultipartOutcome extends UploadOutcome where
  abortAttempted : Bool := false

/-- The end of a multipart upload, when its parts have ended: with `complete`, whose
error goes through `mapErr`, or with an abort. -/
def settleMultipart (env : UploadEnv) (ifNoneMatch : Bool) (attrs : Attributes)
    (mapErr : GetError → UploadError) (before : Option ObjectContent)
    (stored : List (Nat × List UInt8)) :
    Except StorageError (List CompletedPart) → MultipartOutcome
  | .error e =>
    -- the abort is best effort, its own error is dropped
    let sent := env.abortMultipartUpload.send (some stored) (.ok none)
    { object := before, pending := sent.1, result := .error (.storage e), abortAttempted := true }
  | .ok parts =>
    let handled := (assembleParts env stored parts).bind fun bytes =>
      (storeObject ifNoneMatch ⟨bytes, attrs⟩ before).map fun obj => (obj, none)
    let sent := env.completeMultipartUpload.send (before, some stored) handled
    { object := sent.1.1, pending := sent.1.2, result := sent.2.mapError mapErr }

/-- A multipart upload with the given attributes, whose parts come to `parts`. -/
def runMultipart (env : UploadEnv) (ifNoneMatch : Bool) (attrs : Attributes)
    (mapErr : GetError → UploadError) (before : Option ObjectContent)
    (parts : Option (List (Nat × List UInt8) × Except StorageError (List CompletedPart))) :
    Option MultipartOutcome :=
  let created := env.createMultipartUpload.send none (.ok (some []))
  match created.2 with
  | .error e => some { object := before, pending := created.1, result := .error (.storage e.err) }
  | .ok () =>
    match env.uploadId with
    | none =>
      some {
        object := before
        pending := created.1
        result := .error (.storage (.msg "CreateMultipartUpload returned no upload id".toList)) }
    | some _ => parts.map fun out => settleMultipart env ifNoneMatch attrs mapErr before out.1 out.2

/-- `upload_multipart`, with its abort. -/
def uploadMultipartRun (opts : UploadOpts) (env : UploadEnv) (sched : List (Pool.Event Unit))
    (data : List UInt8) (dst : Str) (metadata : Metadata) (before : Option ObjectContent) :
    Option MultipartOutcome :=
  runMultipart env metadata.ifNoneMatch metadata.createAttributes (mapConditionalWriteError · dst)
    before (uploadParts opts env sched data)

theorem uploadMultipart_eq (opts : UploadOpts) (env : UploadEnv) (sched : List (Pool.Event Unit))
    (data : List UInt8) (dst : Str) (metadata : Metadata) (before : Option ObjectContent) :
    uploadMultipart opts env sched data dst metadata before =
      (uploadMultipartRun opts env sched data dst metadata before).map
        MultipartOutcome.toUploadOutcome := by
  have hfinish : ∀ stored r, finishMultipart env dst metadata before stored r =
      (settleMultipart env metadata.ifNoneMatch metadata.createAttributes
        (mapConditionalWriteError · dst) before stored r).toUploadOutcome := by
    intro stored r
    cases r with
    | error e => rfl
    | ok parts =>
      unfold finishMultipart settleMultipart
      dsimp only
      split
      · rename_i hsent
        rw [hsent]
        rfl
      · rename_i hsent
        rw [hsent]
        rfl
  unfold uploadMultipart uploadMultipartRun runMultipart
  cases hcreate : (env.createMultipartUpload.send (none : Option (List (Nat × List UInt8)))
      (.ok (some []))).2 with
  | error e => simp only [hcreate, Option.map_some]
  | ok u =>
    cases env.uploadId with
    | none => simp only [hcreate, Option.map_some]
    | some id =>
      simp only [hcreate, Option.map_map]
      exact congrArg (Option.map · _) (funext fun out => hfinish out.1 out.2)

/-! ## `copy` -/

/-- `DEFAULT_MULTIPART_COPY_THRESHOLD`. -/
def defaultMultipartCopyThreshold : Nat := 5 * 1024 * 1024 * 1024

/-- `MAX_MULTIPART_PARTS`. -/
def maxMultipartParts : Nat := 10000

/-- What `copy` reads of the client. -/
structure CopyOpts extends UploadOpts where
  multipartCopyThreshold : Nat := defaultMultipartCopyThreshold

/-- The outcome of every request of a copy. A HEAD of an object that is not there
fails of itself. -/
structure CopyEnv where
  /-- The size of the source, for a lowered threshold. -/
  headSize : Option StorageError := none
  /-- The look at the destination of a conditional copy. -/
  headDst : Option StorageError := none
  copyObject : WriteRequestFault := none
  /-- The size of the source, when it turns out to be too large. -/
  headSizeAgain : Option StorageError := none
  headContentType : Option StorageError := none
  /-- The requests of the multipart upload; UploadPartCopy is its `uploadPart`. -/
  multipart : UploadEnv := {}

/-- `{:#}` of an error of a copy. -/
def UploadError.displayChain : UploadError → Str
  | .preconditionFailed url => "object already exists, skipped: ".toList ++ url
  | .storage e => e.displayChain

/-- `is_copy_source_too_large`. -/
def isCopySourceTooLarge (e : UploadError) : Bool :=
  let m := Str.toAsciiLowercase e.displayChain
  Str.contains "larger than the maximum allowable size".toList m ||
    Str.contains "entitytoolarge".toList m

/-- What CopyObject answers for a source over 5 GiB. -/
def copySourceTooLarge : GetError where
  debug := "InvalidRequest".toList
  err := .msg ("InvalidRequest: The specified copy source is larger than the maximum allowable " ++
    "size for a copy source: 5368709120").toList

/-- The attributes of a copy: those of the source, unless the directive is
`REPLACE`. -/
def Metadata.copyAttributes (m : Metadata) (src : Attributes) : Attributes :=
  if headerValue m.directive = some "REPLACE".toList then
    { contentType := headerValue m.contentType
      storageClass := headerValue m.storageClass
      acl := headerValue m.acl
      cacheControl := headerValue m.cacheControl
      userDefined := m.userDefined }
  else { src with storageClass := headerValue m.storageClass, acl := headerValue m.acl }

/-- `copy_object_single`: the condition is emulated with a HEAD of the destination. -/
def copyObjectSingle (env : CopyEnv) (src : ObjectContent) (dst : Str) (metadata : Metadata)
    (before : Option ObjectContent) : UploadOutcome :=
  if metadata.ifNoneMatch && (env.headDst.isNone && before.isSome) then
    { object := before, result := .error (.preconditionFailed dst) }
  else
    let handled :=
      if src.bytes.length ≤ defaultMultipartCopyThreshold then
        .ok (some ⟨src.bytes, metadata.copyAttributes src.attrs⟩)
      else .error copySourceTooLarge
    let sent := env.copyObject.send before handled
    { object := sent.1, result := sent.2.mapError fun e => .storage e.err }

/-- The part size of `copy_parts`, grown to stay within the limit on parts. -/
def copyPartSize (partSize size : Nat) : Nat :=
  let minPart := nParts size maxMultipartParts
  if partSize < minPart then nParts minPart (1024 * 1024) * 1024 * 1024 else partSize

theorem le_copyPartSize (partSize size : Nat) : partSize ≤ copyPartSize partSize size := by
  unfold copyPartSize
  dsimp only
  split
  · rename_i hlt
    have hle : nParts size maxMultipartParts ≤ _ := le_nParts_mul (by decide : 0 < 1024 * 1024)
    omega
  · exact Nat.le_refl _

/-- The options with the part size of `copy_parts`. -/
def CopyOpts.forParts (opts : CopyOpts) (size : Nat) : UploadOpts :=
  { opts.toDownloadOpts with
    partSize := copyPartSize opts.partSize size
    le_partSize := Nat.le_trans opts.le_partSize (le_copyPartSize opts.partSize size) }

/-- `copy_parts`: the store copies each range, so there is nothing to read. -/
def copyParts (opts : CopyOpts) (env : CopyEnv) (sched : List (Pool.Event Unit)) (data : List UInt8) :
    Option (List (Nat × List UInt8) × Except StorageError (List CompletedPart)) :=
  uploadParts (opts.forParts data.length) { env.multipart with readFrom := fun _ => none } sched data

/-- The attributes of `copy_multipart`: the content type of the source, unless
there is another one. -/
def copyMultipartAttributes (env : CopyEnv) (src : ObjectContent) (metadata : Metadata) :
    Attributes where
  contentType :=
    match headerValue metadata.contentType with
    | some ct => some ct
    | none => if env.headContentType.isNone then src.attrs.contentType else none
  storageClass := headerValue metadata.storageClass
  acl := headerValue metadata.acl
  cacheControl := headerValue metadata.cacheControl

/-- `copy_multipart`. -/
def copyMultipart (opts : CopyOpts) (env : CopyEnv) (sched : List (Pool.Event Unit))
    (src : ObjectContent) (metadata : Metadata) (before : Option ObjectContent) :
    Option MultipartOutcome :=
  runMultipart env.multipart false (copyMultipartAttributes env src metadata)
    (fun e => .storage e.err) before (copyParts opts env sched src.bytes)

/-- `copy`, of the object `src` to the key printed as `dst`. -/
def copyObject (opts : CopyOpts) (env : CopyEnv) (sched : List (Pool.Event Unit))
    (src : ObjectContent) (dst : Str) (metadata : Metadata) (before : Option ObjectContent) :
    Option MultipartOutcome :=
  let single : Option MultipartOutcome :=
    let out := copyObjectSingle env src dst metadata before
    match out.result with
    | .ok () => some { toUploadOutcome := out }
    | .error e =>
      if isCopySourceTooLarge e then
        match env.headSizeAgain with
        | some e => some { object := out.object, result := .error (.storage e) }
        | none => copyMultipart opts env sched src metadata out.object
      else some { toUploadOutcome := out }
  if opts.dryRun then some { object := before, result := .ok () }
  else if opts.multipartCopyThreshold < defaultMultipartCopyThreshold then
    match env.headSize with
    | some e => some { object := before, result := .error (.storage e) }
    | none =>
      if opts.multipartCopyThreshold < src.bytes.length then
        copyMultipart opts env sched src metadata before
      else single
  else single

/-! ## `client_copy` and `client_copy_to` -/

/-- The outcome of everything a client-side copy does. -/
structure ClientCopyEnv where
  download : DownloadEnv
  headContentType : Except StorageError (Option Str) := .ok none
  upload : UploadEnv := {}
  removeFile : Option StorageError := none

/-- What a client-side copy leaves: its temporary file, and what its upload leaves. -/
structure ClientCopyOutcome extends UploadOutcome where
  temp : Option LocalFile

/-- The metadata of the upload: the content type of the source, unless there is
another one. -/
def clientCopyMetadata (env : ClientCopyEnv) (metadata : Metadata) : Metadata :=
  match headerValue metadata.contentType with
  | some _ => metadata
  | none => { metadata with contentType := env.headContentType.toOption.join }

/-- `client_copy_to`: `src` downloads and `dst` uploads. -/
def clientCopyTo (srcOpts dstOpts : DownloadOpts) (env : ClientCopyEnv)
    (down : List (Pool.Event (Nat × Int))) (up : List (Pool.Event Unit)) (dst : Str)
    (metadata : Metadata) (before : Option ObjectContent) : Option ClientCopyOutcome :=
  if srcOpts.dryRun || dstOpts.dryRun then
    some { object := before, result := .ok (), temp := none }
  else
    -- the name of the temporary file is new
    (download srcOpts env.download down none).bind fun d =>
      match d.result with
      | .error e => some { object := before, result := .error (.storage e), temp := d.file }
      | .ok () =>
        (upload dstOpts env.upload up (d.file.getD (.truncated 0)) dst
          (clientCopyMetadata env metadata) before).map fun u =>
            { toUploadOutcome := u, temp := if env.removeFile.isNone then none else d.file }

/-- `client_copy`: one client does both. -/
def clientCopy (opts : DownloadOpts) : ClientCopyEnv → List (Pool.Event (Nat × Int)) →
    List (Pool.Event Unit) → Str → Metadata → Option ObjectContent → Option ClientCopyOutcome :=
  clientCopyTo opts opts

end Rs5cmd
