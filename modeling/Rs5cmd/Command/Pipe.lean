import Rs5cmd.Storage.S3.Copy

/-!
# The multipart upload of `pipe` (`command/pipe.rs`)

The input is read one part at a time, and each part is sent by a task of its own as
soon as it has been read; a semaphore keeps at most `concurrency` of them going. A
read that fails ends the upload there, and so does the first part that is found to
have failed once the input has been read to its end.

Here the input is its bytes and the reads of it that fail; `PipeReader` has the loop that
reads it, which comes to the same (`pipeMultipart_refines`).
-/

namespace Rs5cmd

/-- The outcome of everything that pipe's `multipart_upload` does: its requests, and
reading the parts after the first one. A part whose task is lost has a fault in
`uploadPart`. -/
structure PipeEnv where
  multipart : UploadEnv := {}
  readPart : Nat → Option StorageError := fun _ => none

/-- The read that fails first of those after each of the `n` parts. -/
def PipeEnv.readFault (env : PipeEnv) (n : Nat) : Option (Nat × StorageError) :=
  (List.range n).findSome? fun i => (env.readPart (i + 1)).map fun e => (i + 1, e)

/-- A read fails before the input ends, or none does. -/
theorem PipeEnv.readFault_eq_none {env : PipeEnv} {n : Nat} :
    env.readFault n = none ↔ ∀ i < n, env.readPart (i + 1) = none := by
  rw [PipeEnv.readFault, List.findSome?_eq_none_iff]
  simp

theorem PipeEnv.readFault_eq_some {env : PipeEnv} {k n : Nat} {e : StorageError} (hk : k < n)
    (hbefore : ∀ i < k, env.readPart (i + 1) = none) (h : env.readPart (k + 1) = some e) :
    env.readFault n = some (k + 1, e) := by
  have hsplit : List.range n = List.range k ++ k :: List.range' (k + 1) (n - (k + 1)) := by
    rw [List.range_eq_range', List.range_eq_range', ← List.range'_succ]
    have happend := @List.range'_append_1 0 k (n - (k + 1) + 1)
    rw [Nat.zero_add] at happend
    rw [happend]
    congr 1
    omega
  rw [PipeEnv.readFault, List.findSome?_eq_some_iff]
  refine ⟨_, k, _, hsplit, by rw [h]; rfl, ?_⟩
  intro i hi
  rw [hbefore i (List.mem_range.mp hi)]
  rfl

/-- The tasks of the first `n` parts of the input. -/
def pipeTasks (opts : UploadOpts) (env : PipeEnv) (data : List UInt8) (n : Nat) :
    Tasks (List (Nat × List UInt8)) UploadPhase (Except StorageError CompletedPart) Unit :=
  partsOf opts { env.multipart with readFrom := fun _ => none } data n

/-- The parts are not read from a file, so opening it cannot fail. -/
def PipeEnv.sending (env : PipeEnv) : UploadEnv := { env.multipart with readFrom := fun _ => none }

theorem pipeTasks_eq (opts : UploadOpts) (env : PipeEnv) (data : List UInt8) (n : Nat) :
    pipeTasks opts env data n = fileTasks env.sending data opts.partSize opts.concurrency n := rfl

/-- `upload_parts_from_reader`, for the input `data`, under a schedule of its tasks.
When it returns early the tasks still going are dropped. -/
def uploadPartsFromReader (opts : UploadOpts) (env : PipeEnv) (sched : List (Pool.Event Unit))
    (data : List UInt8) :
    Option (List (Nat × List UInt8) × Except StorageError (List CompletedPart)) :=
  let n := nParts data.length opts.partSize
  match env.readFault n with
  | some (k, e) =>
    (Machine.run (Pool.step (pipeTasks opts env data k)) { shared := [] } sched).bind fun p =>
      if p.next = k then some (p.shared, .error e) else none
  | none =>
    (Machine.run (Pool.step (pipeTasks opts env data n)) { shared := [] } sched).bind fun p =>
      match collectResults p.results with
      | .error e => if p.next = n then some (p.shared, .error e) else none
      | .ok parts =>
        if Pool.Complete (pipeTasks opts env data n) p then some (p.shared, .ok (sortParts parts))
        else none

/-- What `multipart_upload` sends with CreateMultipartUpload. -/
def Metadata.pipeAttributes (m : Metadata) : Attributes where
  contentType := some m.uploadContentType
  storageClass := headerValue m.storageClass
  acl := headerValue m.acl
  cacheControl := headerValue m.cacheControl
  contentEncoding := headerValue m.contentEncoding
  contentDisposition := headerValue m.contentDisposition
  userDefined := m.userDefined

/-- pipe's `multipart_upload`. -/
def pipeMultipartUpload (opts : UploadOpts) (env : PipeEnv) (sched : List (Pool.Event Unit))
    (data : List UInt8) (metadata : Metadata) (before : Option ObjectContent) :
    Option MultipartOutcome :=
  runMultipart env.multipart false metadata.pipeAttributes (fun e => .storage e.err) before
    (uploadPartsFromReader opts env sched data)

end Rs5cmd
