import Rs5cmd.Command.CpRun
import Rs5cmd.Command.Transfer
import Rs5cmd.Fastpath.Client
import Rs5cmd.Storage.S3.Copy

/-!
# Transfers to a store (`command/cp.rs`, `fastpath/runtime.rs`)

What `copy_one`, and `do_one` of the fast path, do to the objects when the
destination is remote: which function writes the object, and whether `mv` gets to
remove the source. A run takes its pairs one after the other, in any order.
-/

namespace Rs5cmd

/-! ## Stores -/

/-- `Side`. -/
inductive Side where
  | source
  | destination
  deriving DecidableEq, Repr

/-- The objects of the stores. When one client serves both sides, all of them are at
`destination`. -/
abbrev Stores := Side → Str × Str → Option ObjectContent

def Stores.set (st : Stores) (side : Side) (key : Str × Str) (obj : Option ObjectContent) : Stores :=
  Function.update st side (Function.update (st side) key obj)

def Url.key (u : Url) : Str × Str := (u.bucket, u.path)

/-! ## `copy_one` -/

/-- What `copy_one` reads of the options, of the client and of the arguments. -/
structure CopyOneOpts extends CopyOpts where
  clientCopy : Bool := false
  links : Bool := false
  isMove : Bool := false
  /-- There is a client for each side. -/
  sidesDiffer : Bool := false

/-- What `do_one` waits for, retries included. -/
structure DoOneEnv where
  readFile : Option StorageError := none
  put : WriteRequestFault := none
  delete : WriteRequestFault := none
  removeFile : Option StorageError := none

/-- What a transfer finds at its source and what everything that it waits for comes
to. -/
structure CopyOneEnv where
  /-- What a remote source names. -/
  source : ObjectContent := ⟨[], {}⟩
  /-- What a local source leads to. -/
  file : LocalFile := ⟨[], 0⟩
  /-- The target of a local source that is itself a symbolic link. -/
  readLink : Option (Except StorageError (List UInt8)) := none
  upload : UploadEnv := {}
  copy : CopyEnv := {}
  clientCopy : ClientCopyEnv
  down : List (Pool.Event (Nat × Int)) := []
  up : List (Pool.Event Unit) := []
  putObject : WriteRequestFault := none
  delete : WriteRequestFault := none
  /-- What is at the key of the source once the version that it names is deleted. -/
  afterDelete : Option ObjectContent := none
  removeFile : Option StorageError := none
  fast : DoOneEnv := {}

/-- The stores after a transfer, whether its source has been removed, and what it
returned. -/
structure CopyOneOutcome where
  stores : Stores
  removed : Bool := false
  result : Except UploadError Unit

/-- `upload_symlink`: a plain `put_object_bytes` of the target. -/
def uploadSymlink (opts : CopyOneOpts) (env : CopyOneEnv) (target : Except StorageError (List UInt8))
    (before : Option ObjectContent) : UploadOutcome :=
  match target with
  | .error e => { object := before, result := .error (.storage e) }
  | .ok body =>
    if opts.dryRun then { object := before, result := .ok () }
    else
      let sent := env.putObject.send before (.ok (some ⟨body, {}⟩))
      { object := sent.1, result := sent.2.mapError fun e => .storage e.err }

/-- A local source is stored as a placeholder. -/
def CopyOneOpts.storesLink (opts : CopyOneOpts) (env : CopyOneEnv) (src : Url) : Bool :=
  opts.links && !src.isRemote && env.readLink.isSome

/-- The key that is written: the placeholder of a link has a suffix. -/
def CopyOneOpts.target (opts : CopyOneOpts) (env : CopyOneEnv) (src dst : Url) : Str × Str :=
  if opts.storesLink env src then (dst.bucket, dst.path ++ linkSuffix) else dst.key

/-- The object at the key that is written, after the transfer itself. -/
def transferOne (opts : CopyOneOpts) (metadata : Metadata) (env : CopyOneEnv) (src dst : Url)
    (before : Option ObjectContent) : Option UploadOutcome :=
  if src.isRemote then
    if opts.sidesDiffer then
      (clientCopyTo opts.toDownloadOpts opts.toDownloadOpts env.clientCopy env.down env.up
        dst.absolute metadata before).map ClientCopyOutcome.toUploadOutcome
    else if opts.clientCopy then
      (clientCopy opts.toDownloadOpts env.clientCopy env.down env.up dst.absolute metadata before).map
        ClientCopyOutcome.toUploadOutcome
    else
      (copyObject opts.toCopyOpts env.copy env.up env.source dst.absolute metadata before).map
        MultipartOutcome.toUploadOutcome
  else
    match opts.links, env.readLink with
    | true, some target => some (uploadSymlink opts env target before)
    | _, _ => upload opts.toDownloadOpts env.upload env.up env.file dst.absolute metadata before

/-- The store that the client of the source talks to. -/
def CopyOneOpts.sourceSide (opts : CopyOneOpts) : Side :=
  if opts.sidesDiffer then .source else .destination

/-- `mv` removes its source after the transfer. -/
def removeSource (opts : CopyOneOpts) (env : CopyOneEnv) (src : Url) (st : Stores) : CopyOneOutcome :=
  if !opts.isMove || opts.dryRun then { stores := st, result := .ok () }
  else if src.isRemote then
    let sent := env.delete.send (st opts.sourceSide src.key) (.ok env.afterDelete)
    -- a delete whose answer is lost may have been acted on
    { stores := st.set opts.sourceSide src.key sent.1
      removed := env.delete.all fun f => f.1
      result := sent.2.mapError fun e => .storage e.err }
  else
    match env.removeFile with
    | some e => { stores := st, result := .error (.storage e) }
    | none => { stores := st, removed := true, result := .ok () }

/-- `copy_one` to a remote destination. -/
def copyOne (opts : CopyOneOpts) (metadata : Metadata) (env : CopyOneEnv) (src dst : Url)
    (st : Stores) : Option CopyOneOutcome :=
  let key := opts.target env src dst
  (transferOne opts metadata env src dst (st .destination key)).map fun out =>
    let st := st.set .destination key out.object
    match out.result with
    | .error e => { stores := st, result := .error e }
    | .ok () => removeSource opts env src st

/-! ## `do_one` -/

/-- The client of the fast path, and the object that the store takes a request to be
for. -/
structure FastEngine where
  client : FastClient
  addressee : Request → Str × Str

/-- A PUT of the fast path, with the object that the store makes of it. -/
def FastEngine.put (e : FastEngine) (fault : WriteRequestFault) (call : FastCall)
    (handled : Except GetError (Option ObjectContent)) (st : Stores) :
    Stores × Except StorageError Unit :=
  match e.client.request call with
  | .error m => (st, .error (.msg m))
  | .ok req =>
    let sent := fault.send (st .destination (e.addressee req)) handled
    (st.set .destination (e.addressee req) sent.1, sent.2.mapError GetError.err)

/-- `do_one` of an upload or of a server-side copy. -/
def doOne (e : FastEngine) (isMove : Bool) (env : CopyOneEnv) (src dst : Url) (st : Stores) :
    CopyOneOutcome :=
  if src.isRemote then
    let handled :=
      if env.source.bytes.length ≤ defaultMultipartCopyThreshold then
        .ok (some ⟨env.source.bytes, Metadata.copyAttributes {} env.source.attrs⟩)
      else .error copySourceTooLarge
    let sent := e.put env.fast.put (.copy src.bucket src.path dst.bucket dst.path) handled st
    match sent.2 with
    | .error err => { stores := sent.1, result := .error (.storage err) }
    | .ok () =>
      if isMove then
        let sent' := e.put env.fast.delete (.delete src.bucket src.path) (.ok none) sent.1
        { stores := sent'.1
          removed := (e.client.request (.delete src.bucket src.path)).isOk &&
            env.fast.delete.all fun f => f.1
          result := sent'.2.mapError .storage }
      else { stores := sent.1, result := .ok () }
  else
    match env.fast.readFile with
    | some err => { stores := st, result := .error (.storage err) }
    | none =>
      let sent := e.put env.fast.put (.put dst.bucket dst.path env.file.bytes)
        (.ok (some ⟨env.file.bytes, {}⟩)) st
      match sent.2 with
      | .error err => { stores := sent.1, result := .error (.storage err) }
      | .ok () =>
        if isMove then
          match env.fast.removeFile with
          | some err => { stores := sent.1, result := .error (.storage err) }
          | none => { stores := sent.1, removed := true, result := .ok () }
        else { stores := sent.1, result := .ok () }

/-! ## A run -/

/-- The settings of a run; with `fast`, the fast path has taken it over. -/
structure CpOpts extends CopyOneOpts where
  metadata : Metadata := {}
  fast : Option FastEngine := none

/-- A pair, with what its transfer meets. -/
structure CpPair where
  src : Url
  dst : Url
  env : CopyOneEnv

/-- What `report` says of a result. -/
def TransferResult.ofResult : Except UploadError Unit → TransferResult
  | .ok () => .done
  | .error (.preconditionFailed _) => .skipped
  | .error (.storage e) => .failed e

/-- What a run reports of a pair, and whether its source is gone. -/
structure PairReport where
  target : Str × Str
  removed : Bool
  result : TransferResult

structure CpState where
  stores : Stores
  reports : List PairReport := []

/-- The key that a pair is to write. -/
def CpOpts.written (opts : CpOpts) (pair : CpPair) : Str × Str :=
  match opts.fast with
  | some _ => pair.dst.key
  | none => opts.target pair.env pair.src pair.dst

/-- The fast path does nothing in a dry run, and knows no skips. -/
def CpOpts.transfer (opts : CpOpts) (pair : CpPair) (st : Stores) : Option CopyOneOutcome :=
  match opts.fast with
  | some e =>
    if opts.dryRun then some { stores := st, result := .ok () }
    else some (doOne e opts.isMove pair.env pair.src pair.dst st)
  | none => copyOne opts.toCopyOneOpts opts.metadata pair.env pair.src pair.dst st

/-- The transfer of a pair, and its report. -/
def CpState.step (opts : CpOpts) (s : CpState) (pair : CpPair) : Option CpState :=
  (opts.transfer pair s.stores).map fun out =>
    { stores := out.stores
      reports := s.reports ++ [⟨opts.written pair, out.removed, .ofResult out.result⟩] }

end Rs5cmd
