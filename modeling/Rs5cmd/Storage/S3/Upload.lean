import Rs5cmd.Storage.S3.Download
import Std.Data.ExtTreeMap

/-!
# Uploads (`storage/s3.rs`)

`upload` stores a local file as an object: a single PUT for a file of at most one
part, else a multipart upload whose parts are sent concurrently, sorted by part
number and completed, or aborted when one of them fails.

As for downloads, every request and file operation has its outcome in an
`UploadEnv` and the interleaving of the parts is a schedule of a task pool. The
store's own part (what PutObject, UploadPart and CompleteMultipartUpload leave at
the key) is stated here too.
-/

namespace Rs5cmd

abbrev UserMetadata := Std.ExtTreeMap Str Str compare

/-- `MTIME_METADATA_KEY`. -/
def mtimeMetadataKey : Str := "file-mtime".toList

/-- `Metadata`, less the fields that no transfer reads. -/
structure Metadata where
  acl : Option Str := none
  cacheControl : Option Str := none
  storageClass : Option Str := none
  contentType : Option Str := none
  contentEncoding : Option Str := none
  contentDisposition : Option Str := none
  userDefined : UserMetadata := ∅
  directive : Option Str := none
  ifNoneMatch : Bool := false

/-- The attributes a write gives the object; `none` leaves one to the store's
default. -/
structure Attributes where
  contentType : Option Str := none
  storageClass : Option Str := none
  acl : Option Str := none
  cacheControl : Option Str := none
  contentEncoding : Option Str := none
  contentDisposition : Option Str := none
  userDefined : UserMetadata := ∅

structure ObjectContent where
  bytes : List UInt8
  attrs : Attributes := {}

/-- A header that is set only to a value that is not empty. -/
def headerValue (v : Option Str) : Option Str := v.filter fun s => !s.isEmpty

/-- The content type `upload` sends. -/
def Metadata.uploadContentType (m : Metadata) : Str :=
  m.contentType.getD "application/octet-stream".toList

/-- `apply_put_metadata` on a PutObject with the content type of an upload. -/
def Metadata.putAttributes (m : Metadata) : Attributes where
  contentType := some m.uploadContentType
  storageClass := headerValue m.storageClass
  acl := headerValue m.acl
  cacheControl := headerValue m.cacheControl
  contentEncoding := headerValue m.contentEncoding
  contentDisposition := headerValue m.contentDisposition
  userDefined := m.userDefined

/-- What `upload_multipart` sends with CreateMultipartUpload. -/
def Metadata.createAttributes (m : Metadata) : Attributes where
  contentType := some m.uploadContentType
  storageClass := headerValue m.storageClass
  acl := headerValue m.acl
  userDefined := m.userDefined

/-- `{:09}`. -/
def padNanos (n : Nat) : Str :=
  let s := Str.decimal n
  List.replicate (9 - s.length) '0' ++ s

/-- `file_mtime_value`: nothing for a time before the epoch. -/
def fileMtimeValue (modTime : Int) : Option Str :=
  if modTime < 0 then none
  else some (Str.decimal (modTime.toNat / 10 ^ 9) ++ '.' :: padNanos (modTime.toNat % 10 ^ 9))

/-! ## Requests -/

/-- A request that fails: whether the store acted on it all the same, and the
error. -/
abbrev WriteRequestFault := Option (Bool × GetError)

/-- A request to the store: its state afterwards and the answer, where `handled`
is what the store makes of the request. -/
def WriteRequestFault.send {σ : Type} (fault : WriteRequestFault) (s : σ) (handled : Except GetError σ) :
    σ × Except GetError Unit :=
  match fault, handled with
  | none, .ok s' => (s', .ok ())
  | none, .error e => (s, .error e)
  | some (true, e), .ok s' => (s', .error e)
  | some (_, e), _ => (s, .error e)

/-- `is_precondition_failed`. -/
def isPreconditionFailed (e : GetError) : Bool :=
  let m := Str.toAsciiLowercase e.debug
  Str.contains "preconditionfailed".toList m || Str.contains "precondition failed".toList m

/-- An error of an upload: a failed `If-None-Match` is an error of its own. -/
inductive UploadError where
  | preconditionFailed (url : Str)
  | storage (e : StorageError)
  deriving DecidableEq, Repr

/-- `map_conditional_write_error`. -/
def mapConditionalWriteError (e : GetError) (dst : Str) : UploadError :=
  if isPreconditionFailed e then .preconditionFailed dst else .storage e.err

/-- HTTP 412. -/
def preconditionFailedResponse : GetError where
  debug := "PreconditionFailed".toList
  err := .msg "PreconditionFailed".toList

/-- A write of the whole object, with `If-None-Match: *` or not. -/
def storeObject (ifNoneMatch : Bool) (obj : ObjectContent) (before : Option ObjectContent) :
    Except GetError (Option ObjectContent) :=
  if ifNoneMatch && before.isSome then .error preconditionFailedResponse else .ok (some obj)

/-! ## Environment -/

/-- `upload` reads the fields of `S3` that `download` reads. -/
abbrev UploadOpts := DownloadOpts

/-- The outcome of every request and file operation of one upload. Parts are
numbered from 0. -/
structure UploadEnv where
  metadata : Option StorageError := none
  /-- The second look at the file's size, in `upload_single`. -/
  metadataAgain : Option StorageError := none
  /-- `tokio::fs::read`. -/
  readFile : Option StorageError := none
  /-- `ByteStream::from_path`. -/
  fromPath : Option StorageError := none
  putObject : WriteRequestFault := none
  createMultipartUpload : WriteRequestFault := none
  uploadId : Option Str := some "upload".toList
  /-- Opening the file for a part, `ByteStream::read_from`. -/
  readFrom : Nat → Option StorageError := fun _ => none
  uploadPart : Nat → WriteRequestFault := fun _ => none
  /-- The entity tag of a part. -/
  etag : List UInt8 → Option Str := fun _ => none
  completeMultipartUpload : WriteRequestFault := none
  abortMultipartUpload : WriteRequestFault := none

/-- The object at the key after an upload, the parts of a multipart upload that
is neither completed nor aborted, and what the upload returned. -/
structure UploadOutcome where
  object : Option ObjectContent
  pending : Option (List (Nat × List UInt8)) := none
  result : Except UploadError Unit

/-! ## `upload_single` -/

def inlineBodyMax : Nat := 1024 * 1024

/-- The request body: a small file is read into memory, a larger one or one whose
size is not known is streamed. -/
def singleBody (env : UploadEnv) (data : List UInt8) : Except StorageError (List UInt8) :=
  let fault :=
    match env.metadataAgain with
    | none => if data.length ≤ inlineBodyMax then env.readFile else env.fromPath
    | some _ => env.fromPath
  match fault with
  | some e => .error e
  | none => .ok data

/-- `upload_single`. -/
def uploadSingle (env : UploadEnv) (data : List UInt8) (dst : Str) (metadata : Metadata)
    (before : Option ObjectContent) : UploadOutcome :=
  match singleBody env data with
  | .error e => { object := before, result := .error (.storage e) }
  | .ok body =>
    let sent := env.putObject.send before
      (storeObject metadata.ifNoneMatch ⟨body, metadata.putAttributes⟩ before)
    match sent.2 with
    | .error e => { object := sent.1, result := .error (mapConditionalWriteError e dst) }
    | .ok () => { object := sent.1, result := .ok () }

/-! ## `upload_parts` -/

/-- `CompletedPart`. -/
structure CompletedPart where
  partNumber : Nat
  etag : Option Str
  deriving DecidableEq, Repr

/-- `size.div_ceil(part_size) as i32`, as the end of the range `0..n_parts`. -/
def uploadPartCount (size partSize : Nat) : Nat := (Int.bmod (nParts size partSize) (2 ^ 32)).toNat

/-- A part's task: opening the file, then the request with the bytes read. -/
inductive UploadPhase where
  | reading
  | sending (body : List UInt8)

/-- The bytes of part `i` of a file. -/
def partBody (data : List UInt8) (partSize i : Nat) : List UInt8 :=
  let (off, len) := partRange data.length partSize i
  (data.drop off).take len

/-- One step of part `i`. The shared state is what the store has of each part
number, the latest first. -/
def uploadWork (env : UploadEnv) (data : List UInt8) (partSize i : Nat) :
    UploadPhase → Unit → List (Nat × List UInt8) →
      Option (List (Nat × List UInt8) × (UploadPhase ⊕ Except StorageError CompletedPart))
  | .reading, (), stored =>
    match env.readFrom i with
    | some e => some (stored, .inr (.error e))
    | none => some (stored, .inl (.sending (partBody data partSize i)))
  | .sending body, (), stored =>
    let sent := (env.uploadPart i).send stored (.ok ((i + 1, body) :: stored))
    match sent.2 with
    | .error e => some (sent.1, .inr (.error e.err))
    | .ok () => some (sent.1, .inr (.ok ⟨i + 1, env.etag body⟩))

def uploadTasks (opts : UploadOpts) (env : UploadEnv) (data : List UInt8) :
    Tasks (List (Nat × List UInt8)) UploadPhase (Except StorageError CompletedPart) Unit where
  count := uploadPartCount data.length opts.partSize
  limit := opts.concurrency
  start := fun _ => .reading
  work := uploadWork env data opts.partSize

/-- The tasks of the first `n` parts. -/
def partsOf (opts : UploadOpts) (env : UploadEnv) (data : List UInt8) (n : Nat) :
    Tasks (List (Nat × List UInt8)) UploadPhase (Except StorageError CompletedPart) Unit :=
  { uploadTasks opts env data with count := n }

/-- `collect::<Result<Vec<_>>>()`: the first error in completion order, or every
result. -/
def collectResults {α : Type} : List (Nat × Except StorageError α) → Except StorageError (List α)
  | [] => .ok []
  | (_, .error e) :: _ => .error e
  | (_, .ok a) :: rs =>
    match collectResults rs with
    | .error e => .error e
    | .ok as => .ok (a :: as)

/-- `parts.sort_by_key(part_number)`. -/
def sortParts (parts : List CompletedPart) : List CompletedPart :=
  parts.mergeSort fun a b => a.partNumber ≤ b.partNumber

/-- `upload_parts` under a schedule of its tasks: what the store has of the parts,
and the sorted parts. -/
def uploadParts (opts : UploadOpts) (env : UploadEnv) (sched : List (Pool.Event Unit))
    (data : List UInt8) :
    Option (List (Nat × List UInt8) × Except StorageError (List CompletedPart)) :=
  (Machine.run (Pool.step (uploadTasks opts env data)) { shared := [] } sched).bind fun p =>
    if Pool.Complete (uploadTasks opts env data) p then
      some (p.shared, (collectResults p.results).map sortParts)
    else none

/-! ## `upload_multipart` -/

/-- What CompleteMultipartUpload makes of the listed parts: they have to be in
ascending order and each has to be there under its entity tag; the object is
their concatenation. -/
def assembleParts (env : UploadEnv) (stored : List (Nat × List UInt8))
    (parts : List CompletedPart) : Except GetError (List UInt8) :=
  if parts.Pairwise fun a b => a.partNumber < b.partNumber then
    match parts.mapM fun p => (stored.lookup p.partNumber).filter fun b => env.etag b = p.etag with
    | some bodies => .ok bodies.flatten
    | none => .error ⟨"InvalidPart".toList, .msg "InvalidPart".toList⟩
  else .error ⟨"InvalidPartOrder".toList, .msg "InvalidPartOrder".toList⟩

/-- The rest of `upload_multipart`, once the upload has been created. -/
def finishMultipart (env : UploadEnv) (dst : Str) (metadata : Metadata)
    (before : Option ObjectContent) (stored : List (Nat × List UInt8)) :
    Except StorageError (List CompletedPart) → UploadOutcome
  | .error e =>
    -- the abort is best effort, its own error is dropped
    let sent := env.abortMultipartUpload.send (some stored) (.ok none)
    { object := before, pending := sent.1, result := .error (.storage e) }
  | .ok parts =>
    let handled := (assembleParts env stored parts).bind fun bytes =>
      (storeObject metadata.ifNoneMatch ⟨bytes, metadata.createAttributes⟩ before).map
        fun obj => (obj, none)
    let sent := env.completeMultipartUpload.send (before, some stored) handled
    match sent.2 with
    | .error e =>
      { object := sent.1.1, pending := sent.1.2, result := .error (mapConditionalWriteError e dst) }
    | .ok () => { object := sent.1.1, pending := sent.1.2, result := .ok () }

/-- `upload_multipart`. -/
def uploadMultipart (opts : UploadOpts) (env : UploadEnv) (sched : List (Pool.Event Unit))
    (data : List UInt8) (dst : Str) (metadata : Metadata) (before : Option ObjectContent) :
    Option UploadOutcome :=
  let created := env.createMultipartUpload.send none (.ok (some []))
  match created.2 with
  | .error e => some { object := before, pending := created.1, result := .error (.storage e.err) }
  | .ok () =>
    match env.uploadId with
    | none =>
      some {
        object := before
        pending := created.1
        result := .error (.storage (.msg "CreateMultipartUpload returned no upload id".toList)) }
    | some _ =>
      (uploadParts opts env sched data).map fun out =>
        finishMultipart env dst metadata before out.1 out.2

/-! ## `upload` -/

/-- The metadata sent with the upload of a file: with `--preserve-timestamps`, the
file's modification time too. -/
def uploadMetadata (opts : UploadOpts) (modTime : Int) (metadata : Metadata) : Metadata :=
  if opts.preserveTimestamps then
    match fileMtimeValue modTime with
    | some v => { metadata with userDefined := metadata.userDefined.insert mtimeMetadataKey v }
    | none => metadata
  else metadata

/-- `upload` of a file to the key printed as `dst`, under a schedule of its parts. -/
def upload (opts : UploadOpts) (env : UploadEnv) (sched : List (Pool.Event Unit))
    (src : LocalFile) (dst : Str) (metadata : Metadata) (before : Option ObjectContent) :
    Option UploadOutcome :=
  if opts.dryRun then some { object := before, result := .ok () }
  else
    match env.metadata with
    | some e => some { object := before, result := .error (.storage e) }
    | none =>
      let metadata := uploadMetadata opts src.modTime metadata
      if src.bytes.length ≤ opts.partSize then
        some (uploadSingle env src.bytes dst metadata before)
      else uploadMultipart opts env sched src.bytes dst metadata before

end Rs5cmd
