import Rs5cmd.Command.Pipe
import Rs5cmd.Lib.Feed

/-!
# `pipe` from its input on (`command/pipe.rs`)

The input is a feed, which gives as much at a time as it pleases. The loop of
`upload_parts_from_reader` takes a permit, hands the buffer to a task of its own and
reads the next part; once there is nothing left to read it joins the tasks, in the
order in which they end. Which of these happens next is up to the schedule.
-/

namespace Rs5cmd

abbrev ByteFeed := Feed UInt8 StorageError

/-- `read_part`. -/
def readPart (reader : ByteFeed) (cap : Nat) : Except StorageError (List UInt8) × ByteFeed :=
  Feed.fill cap reader cap

/-! ## `upload_parts_from_reader` -/

/-- Where the loop is: it has a buffer for the next task, is about to read one, is
joining the tasks, or has returned. -/
inductive Producer where
  | holding (buf : List UInt8)
  | reading
  | joining (joined : List CompletedPart)
  | returned (r : Except StorageError (List CompletedPart))

/-- The loop and its tasks. A task in flight holds a permit. -/
structure PipeState where
  pool : Pool (List (Nat × List UInt8)) UploadPhase (Except StorageError CompletedPart) :=
    { shared := [] }
  reader : ByteFeed
  partNumber : Int := 1
  producer : Producer

inductive PipeEvent where
  | spawn
  | read
  | send (i : Nat)
  | join
  deriving DecidableEq, Repr

/-- The task of part `i` sends its body. -/
def pipeWork (env : UploadEnv) (i : Nat) (stored : List (Nat × List UInt8)) :
    UploadPhase → Option (List (Nat × List UInt8) × (UploadPhase ⊕ Except StorageError CompletedPart))
  | .reading => none
  | .sending body =>
    let sent := (env.uploadPart i).send stored (.ok ((i + 1, body) :: stored))
    match sent.2 with
    | .error e => some (sent.1, .inr (.error e.err))
    | .ok () => some (sent.1, .inr (.ok ⟨i + 1, env.etag body⟩))

/-- A task is spawned for the buffer, and the part number goes up, as an `i32`. -/
def PipeState.spawned (s : PipeState) (buf : List UInt8) : PipeState :=
  { s with
    pool := { s.pool with
      next := s.pool.next + 1
      inFlight := ((s.partNumber - 1).toNat, .sending buf) :: s.pool.inFlight }
    partNumber := (s.partNumber + 1).bmod (2 ^ 32)
    producer := .reading }

def pipeStep (env : UploadEnv) (partSize concurrency : Nat) (s : PipeState) :
    PipeEvent → Option PipeState
  | .spawn =>
    match s.producer with
    | .holding buf => if s.pool.inFlight.length < concurrency then some (s.spawned buf) else none
    | _ => none
  | .read =>
    match s.producer with
    | .reading =>
      match readPart s.reader partSize with
      | (.error e, reader) => some { s with reader, producer := .returned (.error e) }
      -- the end of the input
      | (.ok [], reader) => some { s with reader, producer := .joining [] }
      | (.ok (b :: bs), reader) => some { s with reader, producer := .holding (b :: bs) }
    | _ => none
  | .send i =>
    match s.producer with
    -- the tasks still going have been dropped
    | .returned _ => none
    | _ =>
      (s.pool.inFlight.lookup i).bind fun ph =>
        (pipeWork env i s.pool.shared ph).map fun out =>
          { s with pool := s.pool.settle i out.1 out.2 }
  | .join =>
    match s.producer with
    | .joining joined =>
      match s.pool.results[joined.length]? with
      | some (_, .error e) => some { s with producer := .returned (.error e) }
      | some (_, .ok part) => some { s with producer := .joining (joined ++ [part]) }
      | none =>
        if s.pool.inFlight.isEmpty then some { s with producer := .returned (.ok (sortParts joined)) }
        else none
    | _ => none

/-- `upload_parts_from_reader`, with the first part read, under a schedule of its
loop and tasks: the parts the store has, and what it returned. -/
def uploadPartsFromFeed (env : UploadEnv) (partSize concurrency : Nat) (sched : List PipeEvent)
    (first : List UInt8) (reader : ByteFeed) :
    Option (List (Nat × List UInt8) × Except StorageError (List CompletedPart)) :=
  (Machine.run (pipeStep env partSize concurrency) { reader, producer := .holding first } sched).bind
    fun s =>
      match s.producer with
      | .returned r => some (s.pool.shared, r)
      | _ => none

/-! ## `put_multipart_reader` -/

/-- A request other than those of the parts. -/
inductive PipeRequest where
  | putObject (body : List UInt8)
  | create
  | complete (parts : List CompletedPart)
  | abort
  deriving DecidableEq, Repr

/-- What `put_multipart_reader` comes to, with the requests it made and the parts that
reached the store. -/
structure PipeOutcome extends MultipartOutcome where
  requests : List PipeRequest := []
  stored : List (Nat × List UInt8) := []

/-- What `put_multipart_reader` reads of the client, and its last two arguments. -/
structure PipeConfig where
  dryRun : Bool := false
  partSize : Nat := 8 * 1024 * 1024
  concurrency : Nat := 8

/-- `put_reader`. -/
def putReader (env : UploadEnv) (body : List UInt8) (metadata : Metadata)
    (before : Option ObjectContent) : PipeOutcome :=
  let sent := env.putObject.send before (storeObject false ⟨body, metadata.pipeAttributes⟩ before)
  { object := sent.1
    result := sent.2.mapError fun e => .storage e.err
    requests := [.putObject body] }

/-- `multipart_upload`, whose parts come to `parts`. -/
def pipeMultipart (env : UploadEnv) (metadata : Metadata) (before : Option ObjectContent)
    (parts : Option (List (Nat × List UInt8) × Except StorageError (List CompletedPart))) :
    Option PipeOutcome :=
  let created := env.createMultipartUpload.send none (.ok (some []))
  match created.2 with
  | .error e =>
    some {
      object := before
      pending := created.1
      result := .error (.storage e.err)
      requests := [.create] }
  | .ok () =>
    match env.uploadId with
    | none =>
      some {
        object := before
        pending := created.1
        result := .error (.storage (.msg "CreateMultipartUpload returned no upload id".toList))
        requests := [.create] }
    | some _ =>
      parts.map fun out =>
        { settleMultipart env false metadata.pipeAttributes (fun e => .storage e.err) before out.1
            out.2 with
          requests := [.create, match out.2 with | .ok ps => .complete ps | .error _ => .abort]
          stored := out.1 }

/-- `put_multipart_reader`, under a schedule of its parts. `drained` is the error of
reading the input to its end in a dry run. -/
def putMultipartReader (cfg : PipeConfig) (env : UploadEnv) (drained : Option StorageError)
    (sched : List PipeEvent) (reader : ByteFeed) (metadata : Metadata)
    (before : Option ObjectContent) : Option PipeOutcome :=
  let concurrency := max cfg.concurrency 1
  let partSize := max cfg.partSize 1
  match readPart reader partSize with
  | (.error e, _) => some { object := before, result := .error (.storage e) }
  | (.ok first, reader) =>
    if first.length < partSize then
      if cfg.dryRun then some { object := before, result := .ok () }
      else some (putReader env first metadata before)
    else if cfg.dryRun then
      some {
        object := before
        result := match drained with | some e => .error (.storage e) | none => .ok () }
    else
      pipeMultipart env metadata before
        (uploadPartsFromFeed env partSize concurrency sched first reader)

/-- The upload is the one of `pipe` with these parts. -/
theorem pipeMultipart_eq (env : UploadEnv) (metadata : Metadata) (before : Option ObjectContent)
    (parts : Option (List (Nat × List UInt8) × Except StorageError (List CompletedPart))) :
    (pipeMultipart env metadata before parts).map PipeOutcome.toMultipartOutcome =
      runMultipart env false metadata.pipeAttributes (fun e => .storage e.err) before parts := by
  unfold pipeMultipart runMultipart
  cases hcreate : (env.createMultipartUpload.send (none : Option (List (Nat × List UInt8)))
      (.ok (some []))).2 with
  | error e => simp only [hcreate, Option.map_some]
  | ok u =>
    cases env.uploadId with
    | none => simp only [hcreate, Option.map_some]
    | some id =>
      simp only [hcreate, Option.map_map]
      rfl

end Rs5cmd
