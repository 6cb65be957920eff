import Rs5cmd.Lib.Bytes
import Rs5cmd.Lib.Pool
import Rs5cmd.Storage.Object
import Mathlib.Data.UInt

/-!
# Downloads (`storage/s3.rs`)

`download` writes an object to a local file: a ranged GET for the first part,
then, for an object larger than one part, the remaining parts concurrently into
the pre-sized file; `download_single` is its fallback for an empty object.

Every request, file operation and task of a download has its outcome in a
`DownloadEnv`, so a statement about every `DownloadEnv` is one about every point
of failure. The order in which the concurrent parts progress is a schedule of a
task pool.
-/

namespace Rs5cmd

/-- A local file, with its modification time in nanoseconds. -/
structure LocalFile where
  bytes : List UInt8
  modTime : Int
  deriving DecidableEq, Repr

namespace LocalFile

/-- `open` with `create` and `truncate`. -/
def truncated (now : Int) : LocalFile := ⟨[], now⟩

/-- `set_len`. -/
def setLen (now : Int) (n : Nat) (f : LocalFile) : LocalFile := ⟨Bytes.setLen n f.bytes, now⟩

/-- `pwrite`, which leaves the file alone when there is nothing to write. -/
def writeAt (now : Int) (off : Nat) (data : List UInt8) (f : LocalFile) : LocalFile :=
  if data.isEmpty then f else ⟨Bytes.writeAt off data f.bytes, now⟩

theorem writeAt_bytes (now : Int) (off : Nat) (data : List UInt8) (f : LocalFile) :
    (f.writeAt now off data).bytes = Bytes.writeAt off data f.bytes := by
  unfold writeAt
  split
  · simp_all
  · rfl

end LocalFile

/-! ## Requests and responses -/

/-- A response body: the chunks that arrive, and the error that ends it early. -/
structure Body where
  chunks : List (List UInt8)
  fails : Option StorageError := none
  deriving DecidableEq, Repr

/-- `body.collect().await?.into_bytes()`. -/
def Body.collect (b : Body) : Except StorageError (List UInt8) :=
  match b.fails with
  | some e => .error e
  | none => .ok b.chunks.flatten

/-- What `download` reads of a GetObject response; `mtime` is the metadata under
`MTIME_METADATA_KEY`. -/
structure GetResponse where
  contentRange : Option Str
  contentLength : Option Int
  mtime : Option Str := none
  body : Body
  deriving DecidableEq, Repr

/-- A failed request: `debug` is its `{:?}` text. -/
structure GetError where
  debug : Str
  err : StorageError
  deriving DecidableEq, Repr

/-- `is_range_not_satisfiable`. -/
def isRangeNotSatisfiable (e : GetError) : Bool :=
  let m := Str.toAsciiLowercase e.debug
  Str.contains "rangenotsatisfiable".toList m || Str.contains "invalidrange".toList m ||
    Str.contains "range not satisfiable".toList m ||
    Str.contains "requested range not satisfiable".toList m

/-- `parse_content_range_total`. -/
def parseContentRangeTotal (cr : Option Str) : Option Nat :=
  cr.bind fun s => Str.parseUnsigned 64 (Str.trim (Str.afterLast '/' s))

/-- The size the first response reports. -/
def GetResponse.total (r : GetResponse) : Nat :=
  match parseContentRangeTotal r.contentRange with
  | some n => n
  | none => (r.contentLength.map fun l => (max l 0).toNat).getD 0

/-- The fields of `S3` that `download` reads, as `S3::new` clamps them. -/
structure DownloadOpts where
  dryRun : Bool := false
  partSize : Nat := 5 * 1024 * 1024
  concurrency : Nat := 1
  preserveTimestamps : Bool := false
  le_partSize : 5 * 1024 * 1024 ≤ partSize := by decide
  concurrency_pos : 0 < concurrency := by decide

/-- The fault of a write: how many bytes reach the file before the error. -/
abbrev WriteFault := Option (Nat × StorageError)

/-- The outcome of every request, file operation and task of one download.
`get` answers a byte range `(first, last)`, or the whole object. Chunks and
parts are numbered, and so are the clock readings of the file operations. -/
structure DownloadEnv where
  /-- Creating the parent directory, if there is one to create. -/
  createDirAll : Option StorageError := none
  get : Option (Nat × Nat) → Except GetError GetResponse
  openFile : Option StorageError := none
  setLen : Option StorageError := none
  write : Nat → WriteFault := fun _ => none
  join : Nat → Option StorageError := fun _ => none
  flush : Option StorageError := none
  setFileMtime : Option StorageError := none
  clock : Nat → Int := fun _ => 0

/-- The destination after a download, and what the download returned. -/
structure DownloadOutcome where
  file : Option LocalFile
  result : Except StorageError Unit

def DownloadOutcome.failed (out : DownloadOutcome) : Prop := ∃ e, out.result = .error e

/-- The bytes of a write that reach the file. -/
def WriteFault.written (fault : WriteFault) (data : List UInt8) : List UInt8 :=
  match fault with
  | none => data
  | some (n, _) => data.take n

def WriteFault.result (fault : WriteFault) : Except StorageError Unit :=
  match fault with
  | none => .ok ()
  | some (_, e) => .error e

/-- A step that returns with `?` when it has an error. -/
def stepResult (fault : Option StorageError) : Except StorageError Unit :=
  match fault with
  | none => .ok ()
  | some e => .error e

/-! ## `download_single` -/

/-- The loop over the chunks of the body, from chunk `k` on, and the final
`flush`. -/
def streamChunks (env : DownloadEnv) (fails : Option StorageError) :
    Nat → List (List UInt8) → LocalFile → DownloadOutcome
  | _, [], f =>
    match fails with
    | some e => ⟨some f, .error e⟩
    | none => ⟨some f, stepResult env.flush⟩
  | k, c :: cs, f =>
    let f' := f.writeAt (env.clock (k + 1)) f.bytes.length ((env.write k).written c)
    match (env.write k).result with
    | .error e => ⟨some f', .error e⟩
    | .ok () => streamChunks env fails (k + 1) cs f'

/-- `download_single`. -/
def downloadSingle (env : DownloadEnv) (dst : Option LocalFile) : DownloadOutcome :=
  match env.get none with
  | .error e => ⟨dst, .error e.err⟩
  | .ok resp =>
    match env.openFile with
    | some e => ⟨dst, .error e⟩
    | none => streamChunks env resp.body.fails 0 resp.body.chunks (.truncated (env.clock 0))

/-! ## `download_remaining_parts` -/

/-- `total.div_ceil(part_size)`. -/
def nParts (total partSize : Nat) : Nat := (total + partSize - 1) / partSize

/-- The byte range of part `i`: its offset and length. -/
def partRange (total partSize i : Nat) : Nat × Nat :=
  (i * partSize, min partSize (total - i * partSize))

/-- A part's task: waiting for its response, or writing what is left of its data
at an offset, to end with the given result. -/
inductive PartPhase where
  | fetching
  | writing (off : Nat) (data : List UInt8) (result : Except StorageError Unit)

/-- The response to part `i`'s ranged GET, collected. -/
def fetchPart (env : DownloadEnv) (total partSize i : Nat) : Except StorageError (List UInt8) :=
  let (off, len) := partRange total partSize i
  match env.get (some (off, off + len - 1)) with
  | .error e => .error e.err
  | .ok resp => resp.body.collect

/-- What a part's blocking write returns: the error of the join or of the write. -/
def writeResult (env : DownloadEnv) (i : Nat) : Except StorageError Unit :=
  match env.join i with
  | some e => .error e
  | none => (env.write i).result

/-- One step of part `i`: its response arrives, some of its data is written, or
it ends. The event says how many bytes are written and when. -/
def partWork (env : DownloadEnv) (total partSize i : Nat) :
    PartPhase → Nat × Int → LocalFile →
      Option (LocalFile × (PartPhase ⊕ Except StorageError Unit))
  | .fetching, _, f =>
    match fetchPart env total partSize i with
    | .error e => some (f, .inr (.error e))
    | .ok data =>
      some (f, .inl (.writing (partRange total partSize i).1 ((env.write i).written data)
        (writeResult env i)))
  | .writing off data result, (n, now), f =>
    if data.isEmpty then some (f, .inr result)
    else if 0 < n ∧ n ≤ data.length then
      some (f.writeAt now off (data.take n), .inl (.writing (off + n) (data.drop n) result))
    else none

/-- The tasks of parts `1..n`, at most `concurrency` at a time. -/
def partTasks (opts : DownloadOpts) (env : DownloadEnv) (total : Nat) :
    Tasks LocalFile PartPhase (Except StorageError Unit) (Nat × Int) where
  count := nParts total opts.partSize - 1
  limit := opts.concurrency
  start := fun _ => .fetching
  work := fun j => partWork env total opts.partSize (j + 1)

/-- `collect::<Result<Vec<_>>>()`: the first error, in completion order. -/
def firstError : List (Nat × Except StorageError Unit) → Except StorageError Unit
  | [] => .ok ()
  | (_, .error e) :: _ => .error e
  | (_, .ok ()) :: rs => firstError rs

/-- `download_remaining_parts` under a schedule of its tasks; there is no outcome
when the schedule does not run them to their end. -/
def downloadRemainingParts (opts : DownloadOpts) (env : DownloadEnv)
    (sched : List (Pool.Event (Nat × Int))) (total : Nat) (f : LocalFile) :
    Option (LocalFile × Except StorageError Unit) :=
  (Machine.run (Pool.step (partTasks opts env total)) { shared := f } sched).bind fun p =>
    if Pool.Complete (partTasks opts env total) p then some (p.shared, firstError p.results)
    else none

/-! ## `download` -/

/-- The time a `seconds[.nanoseconds]` metadata value names. -/
def mtimeOfValue (value : Str) : Option Int :=
  match Str.splitOnce ['.'] value with
  | some (s, n) =>
    (Str.parseI64 s).map fun secs => secs * 10 ^ 9 + ((Str.parseUnsigned 32 n).getD 0 : Nat)
  | none => (Str.parseI64 value).map fun secs => secs * 10 ^ 9

/-- `set_file_mtime_from_value`, whose failure only warns. -/
def restoreMtime (opts : DownloadOpts) (env : DownloadEnv) (resp : GetResponse) (f : LocalFile) :
    LocalFile :=
  if opts.preserveTimestamps then
    match resp.mtime.bind mtimeOfValue, env.setFileMtime with
    | some t, none => { f with modTime := t }
    | _, _ => f
  else f

/-- What follows the first response: the file is created, sized and written. -/
def downloadParts (opts : DownloadOpts) (env : DownloadEnv)
    (sched : List (Pool.Event (Nat × Int))) (resp : GetResponse) (first : List UInt8) :
    Option DownloadOutcome :=
  let total := resp.total
  match env.setLen with
  | some e => some ⟨some (.truncated (env.clock 0)), .error e⟩
  | none =>
    let f := ((LocalFile.truncated (env.clock 0)).setLen (env.clock 1) total).writeAt
      (env.clock 2) 0 ((env.write 0).written first)
    match (env.write 0).result with
    | .error e => some ⟨some f, .error e⟩
    | .ok () =>
      if opts.partSize < total then
        (downloadRemainingParts opts env sched total f).map fun out =>
          match out.2 with
          | .error e => ⟨some out.1, .error e⟩
          | .ok () => ⟨some (restoreMtime opts env resp out.1), .ok ()⟩
      else some ⟨some (restoreMtime opts env resp f), .ok ()⟩

/-- `download` to the file `dst`, under a schedule of the remaining parts. -/
def download (opts : DownloadOpts) (env : DownloadEnv) (sched : List (Pool.Event (Nat × Int)))
    (dst : Option LocalFile) : Option DownloadOutcome :=
  if opts.dryRun then some ⟨dst, .ok ()⟩
  else
    match env.createDirAll with
    | some e => some ⟨dst, .error e⟩
    | none =>
      match env.get (some (0, opts.partSize - 1)) with
      | .error e =>
        if isRangeNotSatisfiable e then some (downloadSingle env dst)
        else some ⟨dst, .error e.err⟩
      | .ok resp =>
        match resp.body.collect with
        | .error e => some ⟨dst, .error e⟩
        | .ok first =>
          match env.openFile with
          | some e => some ⟨dst, .error e⟩
          | none => downloadParts opts env sched resp first

end Rs5cmd
