import Rs5cmd.Command.CopyOne
import Rs5cmd.Command.Sync
import Rs5cmd.Lib.Asks

/-!
# Which client a request goes through (`storage/mod.rs`, `command/cp.rs`, `command/sync.rs`)

`cp`, `mv` and `sync` as programs over the requests that they send, each with the
settings of the client that sends it and the side of the object that it is about.
The answers decide how they go on: what is listed, how large an object is, what
fails. The pages of one listing are one request here.
-/

namespace Rs5cmd

/-! ## Per-side settings -/

/-- The settings of `Options` that decide where a client sends its requests. -/
structure Options where
  region : Option Str := none
  endpoint : Option Str := none
  sourceRegion : Option Str := none
  destinationRegion : Option Str := none
  sourceEndpoint : Option Str := none
  destinationEndpoint : Option Str := none

namespace Options

/-- `region_for`. -/
def regionFor (opts : Options) (side : Side) : Option Str :=
  let perSide :=
    match side with
    | .source => opts.sourceRegion
    | .destination => opts.destinationRegion
  (headerValue perSide).or opts.region

/-- `endpoint_for`. -/
def endpointFor (opts : Options) (side : Side) : Option Str :=
  let perSide :=
    match side with
    | .source => opts.sourceEndpoint
    | .destination => opts.destinationEndpoint
  (headerValue perSide).or opts.endpoint

/-- `for_side`. -/
def forSide (opts : Options) (side : Side) : Options :=
  { opts with region := opts.regionFor side, endpoint := opts.endpointFor side }

/-- `sides_differ`. -/
def sidesDiffer (opts : Options) : Bool :=
  opts.regionFor .source != opts.regionFor .destination ||
    opts.endpointFor .source != opts.endpointFor .destination

end Options

/-- Where a client sends its requests: the settings that `S3::new` reads, with the
endpoint of the environment (`AWS_ENDPOINT_URL` or `S3_ENDPOINT_URL`) as a default. -/
structure ClientConfig where
  region : Option Str
  endpoint : Option Str
  deriving DecidableEq, Repr

/-- `S3::new`. -/
def ClientConfig.new (envEndpoint : Option Str) (opts : Options) : ClientConfig where
  region := opts.region
  endpoint := (headerValue opts.endpoint).or envEndpoint

/-! ## Requests -/

inductive S3Op where
  | list
  | headObject
  | getObject
  | putObject
  | createMultipartUpload
  | uploadPart
  | uploadPartCopy
  | completeMultipartUpload
  | abortMultipartUpload
  | copyObject
  | deleteObject
  deriving DecidableEq, Repr

/-- A request, with the side of the object it is about and the client it goes
through. -/
structure S3Call where
  op : S3Op
  side : Side
  client : ClientConfig
  deriving DecidableEq, Repr

/-- A request, or an operation of the local filesystem. -/
inductive Effect where
  | remote (call : S3Call)
  | loc

/-- What an effect comes to, as far as a program looks at it. -/
structure Answer where
  ok : Bool := true
  objects : List Object := []
  size : Nat := 0
  /-- A range that the object does not have. -/
  notSatisfiable : Bool := false
  /-- A source that is too large for CopyObject. -/
  tooLarge : Bool := false
  uploadId : Bool := true

instance : Nonempty Answer := ⟨{}⟩

abbrev Routed := Asks Effect Answer

def send (s3 : ClientConfig) (op : S3Op) (side : Side) : Routed Answer :=
  .question (.remote ⟨op, side, s3⟩)

/-- A request of which only its success matters. -/
def sendOk (s3 : ClientConfig) (op : S3Op) (side : Side) : Routed Bool :=
  return (← send s3 op side).ok

def onDisk : Routed Answer := .question .loc

def onDiskOk : Routed Bool := return (← onDisk).ok

/-- `list`, with the client that `new_client` makes. -/
def listWith (fs : LocalFs) (s3 : ClientConfig) (side : Side) (u : Url) (followSymlinks : Bool) :
    Routed (List Object) :=
  if u.isRemote then return (← send s3 .list side).objects else return fs.list u followSymlinks

/-- `stat`; a look at a remote object is answered with it, or with nothing. -/
def statWith (fs : LocalFs) (s3 : ClientConfig) (side : Side) (u : Url) : Routed (Option Object) :=
  if u.isRemote then return (← send s3 .headObject side).objects.head?
  else return (fs.statSync u).toOption

/-- The settings of a run that its transfers read. -/
structure RouteOpts extends CopyOneOpts where
  metadata : Metadata := {}

namespace RouteOpts

variable (opts : RouteOpts)

/-! ## The methods of `S3` -/

/-- The methods that return at once in a dry run. -/
def unlessDry (p : Routed Bool) : Routed Bool := if opts.dryRun then return true else p

/-- `download`. -/
def download (s3 : ClientConfig) : Routed Bool :=
  opts.unlessDry <| onDiskOk.also do
    let resp ← send s3 .getObject .source
    if resp.ok then
      onDiskOk.also <|
        if opts.partSize < resp.size then
          -- the other parts
          Asks.all (fun _ => (sendOk s3 .getObject .source).also onDiskOk)
            (List.range (nParts resp.size opts.partSize - 1))
        else return true
    else if resp.notSatisfiable then
      -- `download_single`
      (sendOk s3 .getObject .source).also onDiskOk
    else return false

/-- A multipart upload, with the program of each part. -/
def multipart (s3 : ClientConfig) (part : Routed Bool) (parts : Nat) : Routed Bool := do
  let created ← send s3 .createMultipartUpload .destination
  if created.ok && created.uploadId then
    if ← Asks.all (fun _ => part) (List.range parts) then
      sendOk s3 .completeMultipartUpload .destination
    else
      let _ ← send s3 .abortMultipartUpload .destination
      return false
  else return false

/-- `upload`. -/
def upload (s3 : ClientConfig) : Routed Bool :=
  opts.unlessDry do
    let file ← onDisk
    if !file.ok then return false
    else if file.size ≤ opts.partSize then onDiskOk.also (sendOk s3 .putObject .destination)
    else
      multipart s3 (onDiskOk.also (sendOk s3 .uploadPart .destination))
        (uploadPartCount file.size opts.partSize)

/-- `head_content_type`, unless a content type is given; its failure does not matter. -/
def headContentType (s3 : ClientConfig) : Routed Bool :=
  if (headerValue opts.metadata.contentType).isSome then return true
  else do
    let _ ← send s3 .headObject .source
    return true

/-- `client_copy_to`, and `client_copy` with one client for both. -/
def clientCopyTo (s3 dstS3 : ClientConfig) : Routed Bool :=
  opts.unlessDry <| (opts.download s3).also <| (opts.headContentType s3).also (opts.upload dstS3)

/-- `copy_multipart`: the store reads the parts itself. -/
def copyMultipart (s3 : ClientConfig) (size : Nat) : Routed Bool :=
  (opts.headContentType s3).also <|
    multipart s3 (sendOk s3 .uploadPartCopy .destination)
      (uploadPartCount size (copyPartSize opts.partSize size))

/-- The look at the destination of a conditional copy. -/
def headDst (s3 : ClientConfig) : Routed Bool :=
  if opts.metadata.ifNoneMatch then sendOk s3 .headObject .destination else return false

/-- `copy_object_single`: whether it succeeds, and whether its error is taken for a
source that is too large. -/
def copyObjectSingle (s3 : ClientConfig) (dst : Url) : Routed (Bool × Bool) := do
  if ← opts.headDst s3 then return (false, isCopySourceTooLarge (.preconditionFailed dst.absolute))
  else
    let resp ← send s3 .copyObject .destination
    return (resp.ok, resp.tooLarge)

/-- The common path of `copy`. -/
def copyOrFallBack (s3 : ClientConfig) (dst : Url) : Routed Bool := do
  let (ok, tooLarge) ← opts.copyObjectSingle s3 dst
  if ok then return true
  else if tooLarge then
    let head ← send s3 .headObject .source
    if head.ok then opts.copyMultipart s3 head.size else return false
  else return false

/-- `copy`. -/
def copy (s3 : ClientConfig) (dst : Url) : Routed Bool :=
  opts.unlessDry <|
    if opts.multipartCopyThreshold < defaultMultipartCopyThreshold then do
      let head ← send s3 .headObject .source
      if !head.ok then return false
      else if opts.multipartCopyThreshold < head.size then opts.copyMultipart s3 head.size
      else opts.copyOrFallBack s3 dst
    else opts.copyOrFallBack s3 dst

/-- `delete`. -/
def delete (s3 : ClientConfig) (side : Side) : Routed Bool :=
  opts.unlessDry (sendOk s3 .deleteObject side)

/-! ## `copy_one` -/

/-- `upload_symlink`. -/
def uploadSymlink (s3 : ClientConfig) : Routed Bool :=
  onDiskOk.also (opts.unlessDry (sendOk s3 .putObject .destination))

/-- `download_symlink`: the object is read in a dry run too. -/
def downloadSymlink (s3 : ClientConfig) : Routed Bool :=
  (sendOk s3 .getObject .source).also (opts.unlessDry onDiskOk)

/-- `mv` deletes a remote source, or removes a local one, after the transfer. -/
def removeSource (s3 : ClientConfig) (remote : Bool) : Routed Bool :=
  if !opts.isMove then return true
  else if remote then opts.delete s3 .source
  else opts.unlessDry onDiskOk

/-- The transfer of `copy_one`, with the client of the source or of both sides, and the
client of the destination if there is one. `link` says whether a local source is a
symbolic link. -/
def transfer (s3 : ClientConfig) (s3Dst : Option ClientConfig) (link : Bool) (pr : Url × Url) :
    Routed Bool :=
  match pr.1.isRemote, pr.2.isRemote with
  | true, true =>
    match s3Dst with
    | some dstS3 => opts.clientCopyTo s3 dstS3
    | none => if opts.clientCopy then opts.clientCopyTo s3 s3 else opts.copy s3 pr.2
  | true, false =>
    if opts.links && Str.endsWithStr linkSuffix pr.1.path then opts.downloadSymlink s3
    else opts.download s3
  | false, true =>
    if opts.links && link then opts.uploadSymlink (s3Dst.getD s3) else opts.upload (s3Dst.getD s3)
  | false, false => onDiskOk

/-- `copy_one`. -/
def copyOne (s3 : ClientConfig) (s3Dst : Option ClientConfig) (link : Bool) (pr : Url × Url) :
    Routed Bool :=
  (opts.transfer s3 s3Dst link pr).also (opts.removeSource s3 pr.1.isRemote)

/-! ## `do_one` -/

/-- `do_one`, with the one client of the fast path. -/
def doOne (client : ClientConfig) (pr : Url × Url) : Routed Bool :=
  let removed (remote : Bool) : Routed Bool :=
    if !opts.isMove then return true
    else if remote then sendOk client .deleteObject .source
    else onDiskOk
  match pr.1.isRemote, pr.2.isRemote with
  | true, true => (sendOk client .copyObject .destination).also (removed true)
  | true, false => ((sendOk client .getObject .source).also onDiskOk).also (removed true)
  | false, true => (onDiskOk.also (sendOk client .putObject .destination)).also (removed false)
  | false, false => return true

end RouteOpts

/-! ## `cp` and `mv` -/

/-- A run of `cp` or `mv`. -/
structure CpCommand extends RouteOpts where
  options : Options
  envEndpoint : Option Str := none
  fs : LocalFs
  filters : Filters
  followSymlinks : Bool := true
  fast : Bool := false
  /-- Whether a local path is itself a symbolic link. -/
  isSymlink : Str → Bool := fun _ => false
  srcs : List Url
  dst : Url

namespace CpCommand

variable (cmd : CpCommand)

/-- The client of a side, as `for_side` configures it. -/
def side (s : Side) : ClientConfig := .new cmd.envEndpoint (cmd.options.forSide s)

/-- The client of the options that both sides share. -/
def shared : ClientConfig := .new cmd.envEndpoint cmd.options

/-- `client.list(src)` of `expand_sources`: the client has the shared options. -/
def listSource (src : Url) : Routed (List Object) :=
  listWith cmd.fs cmd.shared .source src cmd.followSymlinks

/-- `expand_sources`. -/
def expandSources (src : Url) : Routed (List (Url × Url)) :=
  if expandsVersions src then return expandAllVersions cmd.fs cmd.dst (← cmd.listSource src)
  else if !isMulti cmd.fs src then return [(src, resolveSingleDest cmd.fs src cmd.dst)]
  else
    return ((← cmd.listSource src).filterMap (keptSource cmd.filters)).map fun u =>
      (u, cmd.dst.join u.relative)

def expandAll : List Url → Routed (List (Url × Url))
  | [] => return []
  | src :: srcs => return (← cmd.expandSources src) ++ (← expandAll srcs)

/-- `try_fast_path`, for the pairs that it accepts: it needs an endpoint. -/
def fastPath (pairs : List (Url × Url)) : Routed Bool :=
  match cmd.options.endpoint with
  | none => return false
  | some _ => cmd.unlessDry (Asks.all (cmd.toRouteOpts.doOne cmd.shared) pairs)

/-- The transfers of the default path, with one client or two. -/
def defaultPath (pairs : List (Url × Url)) : Routed Bool :=
  Asks.all (fun pr =>
    if cmd.options.sidesDiffer then
      cmd.toRouteOpts.copyOne (cmd.side .source) (some (cmd.side .destination))
        (cmd.isSymlink pr.1.absolute) pr
    else cmd.toRouteOpts.copyOne cmd.shared none (cmd.isSymlink pr.1.absolute) pr) pairs

/-- The transfers of the pairs. -/
def transferAll (pairs : List (Url × Url)) : Routed Bool :=
  if cmd.fast && fastAccepts pairs then cmd.fastPath pairs else cmd.defaultPath pairs

/-- `run`, from the parsed command line on. -/
def run : Routed Bool := do
  let pairs ← cmd.expandAll cmd.srcs
  cmd.transferAll pairs

end CpCommand

/-! ## `sync` -/

/-- A run of `sync`. -/
structure SyncCommand extends RouteOpts where
  options : Options
  envEndpoint : Option Str := none
  fs : LocalFs
  filters : Filters
  args : SyncArgs := {}
  src : Url
  dst : Url

namespace SyncCommand

variable (cmd : SyncCommand)

def side (s : Side) : ClientConfig := .new cmd.envEndpoint (cmd.options.forSide s)

def shared : ClientConfig := .new cmd.envEndpoint cmd.options

/-- `is_source_batch`. -/
def isBatch : Bool :=
  if cmd.src.isWildcard then true
  else if cmd.src.isRemote then cmd.src.isBucket || cmd.src.isPrefix
  else
    match cmd.fs.statSync cmd.src with
    | .ok obj => obj.typ.isDir
    | .error _ => false

/-- `collect_source_objects`. -/
def collectSource : Routed (Option ObjectMap) :=
  if cmd.isBatch then do
    let objs ← listWith cmd.fs (cmd.side .source) .source cmd.src cmd.args.followSymlinks
    return (collectListed cmd.fs cmd.src cmd.filters cmd.args.checksum cmd.args.forceGlacierTransfer
      objs ∅).toOption
  else do
    let obj ← statWith cmd.fs (cmd.side .source) .source cmd.src
    return obj.map (collectSingle cmd.fs cmd.src cmd.filters cmd.args.checksum)

/-- `collect_dest_objects`. -/
def collectDest : Routed (Option ObjectMap) :=
  match Url.parse (listingPath cmd.dst) with
  | .error _ => return some ∅
  | .ok listingUrl => do
    let objs ← listWith cmd.fs (cmd.side .destination) .destination listingUrl false
    return (collectDestListed cmd.dst cmd.filters objs ∅).toOption

/-- What is to be copied and deleted, unless it is too much. -/
def plan (source dest : ObjectMap) : Option SyncPlan :=
  let plan := partition (.new cmd.args.sizeOnly cmd.args.checksum) cmd.dst cmd.isBatch cmd.args.delete
    source dest
  if cmd.args.maxDelete.any fun max => plan.toDelete.length > max then none else some plan

/-- `sync` knows neither `--client-copy` nor `--links` nor `mv`. -/
def copyOpts : RouteOpts :=
  { cmd.toRouteOpts with clientCopy := false, links := false, isMove := false }

/-- `copy_one` of `sync`. -/
def copyOne (pr : Url × Url) : Routed Bool :=
  if cmd.options.sidesDiffer then
    cmd.copyOpts.copyOne (cmd.side .source) (some (cmd.side .destination)) false pr
  else cmd.copyOpts.copyOne cmd.shared none false pr

/-- `delete_one`, with the client of the destination if there is one. -/
def deleteOne (u : Url) : Routed Bool :=
  if u.isRemote then
    cmd.delete (if cmd.options.sidesDiffer then cmd.side .destination else cmd.shared) .destination
  else onDiskOk

/-- The copies and the deletions. A run that stops at an error makes fewer requests. -/
def execute (plan : SyncPlan) : Routed Bool := do
  let copied ← Asks.all cmd.copyOne plan.toCopy
  let deleted ← Asks.all cmd.deleteOne plan.toDelete
  return copied && deleted

/-- `run`, from the parsed command line on. -/
def run : Routed Bool := do
  match ← cmd.collectSource with
  | none => return false
  | some source =>
    match ← cmd.collectDest with
    | none => return false
    | some dest =>
      match cmd.plan source dest with
      | none => return false
      | some plan => cmd.execute plan

end SyncCommand

end Rs5cmd
