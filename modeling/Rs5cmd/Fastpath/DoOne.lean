import Rs5cmd.Command.Transfer
import Rs5cmd.Fastpath.Retry
import Rs5cmd.Fastpath.Threads
import Rs5cmd.Lib.Turns

/-!
# One transfer of the fast path (`fastpath/runtime.rs`, `command/cp.rs`)

`do_one` is the fast path's own `copy_one`: it reads or writes a whole file, sends
requests through the fast client, each of them repeated by `with_retry`, and deletes the
source of a move. Here it is run step by step against the same `World` as the default
path. A request is sent to an S3 server, which goes by what the request says and not by
what was meant; it may carry out a request and still answer with an error.

`write_file` also makes missing parent directories, which are no cells of a `World`.
-/

namespace Rs5cmd

open LexPath

/-! ## The server -/

/-- The bucket and the key in `/bucket/key`. -/
def pathObject (text : Str) : Option (Str × Str) :=
  (Str.stripPrefix ['/'] text).bind (Str.splitOnce ['/'])

def objectCell (target : Str × Str) : Cell := .object false target.1 target.2 []

namespace Request

/-- The object a request is for: its path is percent-decoded. A request with a query is
for something else than an object. -/
def object? (req : Request) : Option (Str × Str) :=
  match req.uri.query with
  | none => pathObject (percentDecode req.uri.path)
  | some _ => none

/-- `x-amz-copy-source`. -/
def copySource? (req : Request) : Option Str := req.headers.lookup "x-amz-copy-source".toList

/-- What the server stores for a PUT: the body, or what the copy source holds. -/
def stored? (req : Request) (w : World) : Option Content :=
  match req.copySource? with
  | none => some (.bytes req.body)
  | some source =>
    (pathObject (percentDecode source)).bind fun src => (w.bytesAt (objectCell src)).map .bytes

/-- Carrying out a request. -/
def perform (req : Request) (w : World) : World :=
  match req.object?, req.method with
  | some target, .put =>
    match req.stored? w with
    | some content => w.set (objectCell target) (some content)
    | none => w
  | some target, .delete => w.set (objectCell target) none
  | _, _ => w

/-- Whether a success with this body can be the answer. -/
def canAnswer (req : Request) (w : World) (body : List UInt8) : Bool :=
  match req.object?, req.method with
  | some target, .get => w.bytesAt (objectCell target) = some body
  | some _, .put => (req.stored? w).isSome
  | _, _ => true

end Request

namespace Fastpath

/-! ## The transfer -/

/-- What `do_one` works with. -/
structure OneConfig where
  client : FastClient
  /-- `Display` of a status code. -/
  showStatus : Nat → Str := fun _ => []
  maxRetries : Nat
  isMove : Bool
  cwd : Str := ['/']

def OneConfig.fileLoc (cfg : OneConfig) (p : Str) : Loc Name :=
  locFrom (locOf cfg.cwd) p

/-- Where `do_one` stands. `first` is the file as it was opened, which says how much is
read of it; a call has been tried `attempt` times. -/
inductive Stage where
  | start
  | opened (first : List UInt8)
  | calling (call : FastCall) (attempt : Nat)
  | received (data : List UInt8)
  | writing (loc : Loc Name) (data : List UInt8)
  | removing
  deriving DecidableEq

/-- What happens to a transfer: it goes on; `send` answers, with the request `applied` or
not; the file it writes holds something `meanwhile`; or a local operation fails. -/
inductive StageEvent where
  | go
  | answer (resp : Except Str HttpResponse) (applied : Bool)
  | write (meanwhile : List UInt8)
  | fail (e : FastError)

/-- What follows a call that has succeeded. -/
def afterCall (isMove : Bool) : Transfer → FastCall → List UInt8 → Stage ⊕ Except FastError Unit
  | .upload .., .put .., _ => if isMove then .inl .removing else .inr (.ok ())
  | .download .., .get .., body => .inl (.received body)
  | .copy srcBucket srcKey _ _, .copy .., _ =>
    if isMove then .inl (.calling (.delete srcBucket srcKey) 0) else .inr (.ok ())
  | _, _, _ => .inr (.ok ())

/-- One attempt of a call under `with_retry`. -/
def tryCall (cfg : OneConfig) (item : Transfer) (call : FastCall) (attempt : Nat)
    (resp : Except Str HttpResponse) (applied : Bool) (w : World) :
    Option (World × (Stage ⊕ Except FastError Unit)) :=
  let sent := cfg.client.request call
  let w' := match sent with
    | .ok req => if applied then req.perform w else w
    | .error _ => w
  match cfg.client.exec cfg.showStatus (fun _ => resp) call with
  | .ok body =>
    -- the server reports success only of what it has carried out
    if applied && (match sent with
      | .ok req => req.canAnswer w body
      | .error _ => true) then some (w', afterCall cfg.isMove item call body)
    else none
  | .error e =>
    if cfg.maxRetries ≤ attempt || !e.isRetryable then some (w', .inr (.error e))
    else some (w', .inl (.calling call (attempt + 1)))

/-- `do_one`, one step at a time. -/
def doOne (cfg : OneConfig) (item : Transfer) :
    Stage → StageEvent → World → Option (World × (Stage ⊕ Except FastError Unit))
  | .start, .go, w =>
    match item with
    | .upload localPath _ _ =>
      (w.read (.file (cfg.fileLoc localPath))).map fun first => (w, .inl (.opened first))
    | .download bucket key _ => some (w, .inl (.calling (.get bucket key) 0))
    | .copy srcBucket srcKey dstBucket dstKey =>
      some (w, .inl (.calling (.copy srcBucket srcKey dstBucket dstKey) 0))
  | .opened first, .go, w =>
    match item with
    | .upload localPath bucket key =>
      -- `read_exact_at` with the length the file had; a removed file can still be read
      let data := (w.read (.file (cfg.fileLoc localPath))).getD first
      if first.length ≤ data.length then
        some (w, .inl (.calling (.put bucket key (data.take first.length)) 0))
      else some (w, .inr (.error (.other "failed to fill whole buffer".toList)))
    | _ => none
  | .calling call attempt, .answer resp applied, w => tryCall cfg item call attempt resp applied w
  | .received data, .go, w =>
    match item with
    | .download _ _ localPath =>
      -- `File::create` empties the file
      (w.resolve (cfg.fileLoc localPath)).map fun l =>
        (w.set (.file l) (some (.bytes [])), .inl (.writing l data))
    | _ => none
  | .writing l data, .write meanwhile, w =>
    some (w.set (.file l) (some (.bytes meanwhile)), .inl (.writing l data))
  | .writing l data, .go, w =>
    match item with
    | .download bucket key _ =>
      some (w.set (.file l) (some (.bytes data)),
        if cfg.isMove then .inl (.calling (.delete bucket key) 0) else .inr (.ok ()))
    | _ => none
  | .removing, .go, w =>
    match item with
    | .upload localPath _ _ =>
      let cell := .file (cfg.fileLoc localPath)
      (w cell).map fun _ => (w.set cell none, .inr (.ok ()))
    | _ => none
  | .calling _ _, .fail _, _ => none
  | _, .fail e, w => some (w, .inr (.error e))
  | _, _, _ => none

/-! ## The work-list -/

/-- The transfer that `try_fast_path` makes of a pair. -/
def ofPair (pr : Url × Url) : Transfer :=
  if pr.1.isRemote then
    if pr.2.isRemote then .copy pr.1.bucket pr.1.path pr.2.bucket pr.2.path
    else .download pr.1.bucket pr.1.path pr.2.absolute
  else .upload pr.1.absolute pr.2.bucket pr.2.path

/-- Whether `try_fast_path` takes the pairs: there are some, and each has a remote side. -/
def accepts (pairs : List (Url × Url)) : Bool :=
  !pairs.isEmpty && !pairs.any fun pr => !pr.1.isRemote && !pr.2.isRemote

/-- `run_shard`. -/
def shardTasks (cfg : OneConfig) (concurrency : Nat) (shard : List Transfer) :
    Tasks World Stage (Except FastError Unit) StageEvent where
  count := shard.length
  limit := max concurrency 1
  start := fun _ => .start
  work := fun i stage e w =>
    match shard[i]? with
    | some item => doOne cfg item stage e w
    | none => none

theorem shardTasks_work (cfg : OneConfig) (concurrency : Nat) (shard : List Transfer) (i : Nat)
    (stage : Stage) (e : StageEvent) (w : World) :
    (shardTasks cfg concurrency shard).work i stage e w =
      shard[i]?.bind fun item => doOne cfg item stage e w := by
  simp only [shardTasks]
  cases shard[i]? with
  | none => rfl
  | some item => rfl

/-- The shards of `run_transfers`, one for each thread. -/
def fastTasks (cfg : OneConfig) (cores concurrency : Nat) (items : List Transfer) (k : Nat) :
    Tasks World Stage (Except FastError Unit) StageEvent :=
  shardTasks cfg concurrency ((shards (min (max cores 1) items.length) items)[k]?.getD [])

end Fastpath

end Rs5cmd
