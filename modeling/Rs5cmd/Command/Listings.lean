import Rs5cmd.Command.Filters
import Rs5cmd.Command.Tree
import Rs5cmd.Lib.Collect
import Rs5cmd.Lines
import Rs5cmd.Storage.S3.Download

/-!
# Commands that read a listing (`command/{cat,select,du,ls,tree}.rs`)

Each goes once through what `list` sends, and the first error there ends it. `cat` and
`select` collect URLs, sort them and go from one to the next; `du` and `ls` add sizes up
as they go, and `tree` lists all there is below its target. What a request for an object is
answered is a parameter, standard output takes whatever is written to it, and sums wrap as
they do in a release build.
-/

namespace Rs5cmd

/-- The loop over what `list` sends, with the error that ended it. -/
def receive {σ : Type} (take : σ → Object → σ) : σ → List Object → σ × Option StorageError
  | s, [] => (s, none)
  | s, obj :: objs =>
    match obj.err with
    | some e => (s, some e)
    | none => receive take (take s obj) objs

theorem receive_ok {σ : Type} {take : σ → Object → σ} {objs : List Object}
    (h : ∀ obj ∈ objs, obj.err = none) (s : σ) : receive take s objs = (objs.foldl take s, none) := by
  induction objs generalizing s with
  | nil => rfl
  | cons obj objs ih =>
    rw [receive, h obj List.mem_cons_self, List.foldl_cons]
    exact ih (fun obj' hobj' => h obj' (List.mem_cons_of_mem obj hobj')) (take s obj)

/-- The order of the keys, `a.path.cmp(&b.path)`. -/
def byKey : Url → Url → Ordering := compareOn Url.path

instance : Std.TransCmp byKey := inferInstanceAs (Std.TransCmp (compareOn Url.path))

/-- By key, then by version. -/
def byVersion : Url → Url → Ordering := compareLex byKey (compareOn Url.versionId)

instance : Std.TransCmp byVersion := inferInstanceAs (Std.TransCmp (compareLex _ _))

/-- Whether a remote source is expanded by listing it. -/
def Url.expands (u : Url) : Bool := u.isWildcard || u.isBucket || u.isPrefix

def noObjectsMatched (url : Url) : StorageError :=
  .msg ("no objects matched ".toList ++ url.absolute)

/-! ## cat -/

structure CatArgs where
  src : Str
  versionId : Option Str := none

/-- What `cat` works with: `getObject` answers for a bucket, a key and a version. -/
structure CatEnv where
  backend : Backend
  getObject : Str → Str → Str → Except StorageError Body
  readFile : Str → Except StorageError (List UInt8)

/-- `S3::read`. -/
def CatEnv.read (env : CatEnv) (src : Url) : Except StorageError Body :=
  env.getObject src.bucket src.path src.versionId

/-- What arrives of an object, and the error that cuts it short. -/
def CatEnv.stream (env : CatEnv) (src : Url) : List UInt8 × Option StorageError :=
  match env.read src with
  | .error e => ([], some e)
  | .ok body => (body.chunks.flatten, body.fails)

def catSource (srcs : List Url) (obj : Object) : List Url :=
  if obj.typ.isDir then srcs else srcs ++ obj.url.toList

/-- How a failure to read an object is reported. -/
def catFailure (src : Url) (e : StorageError) : StorageError :=
  .msg ("cat ".toList ++ src.absolute ++ ": ".toList ++ e.displayChain)

/-- Prints the objects one after the other. -/
def CatEnv.concat (env : CatEnv) : List Url → List UInt8 × Except StorageError Unit
  | [] => ([], .ok ())
  | src :: srcs =>
    match env.stream src with
    | (bytes, some e) => (bytes, .error (catFailure src e))
    | (bytes, none) => (bytes ++ (env.concat srcs).1, (env.concat srcs).2)

/-- `cat_expanded`. -/
def CatEnv.expanded (env : CatEnv) (s3 : S3) (url : Url) : List UInt8 × Except StorageError Unit :=
  match receive catSource [] (s3.list url) with
  | (_, some e) => ([], .error e)
  | (srcs, none) =>
    if srcs.isEmpty then ([], .error (noObjectsMatched url))
    else env.concat (Collect.sortBy byKey srcs)

/-- `run` of `cat`: what it prints, and whether it succeeds. -/
def CatArgs.run (env : CatEnv) (args : CatArgs) : List UInt8 × Except StorageError Unit :=
  match Url.new args.src { versionId := args.versionId } with
  | .error e => ([], .error (.msg e))
  | .ok url =>
    if url.isRemote && url.expands then
      if args.versionId.isSome then
        ([], .error (.msg
          "--version-id cannot be combined with a wildcard/prefix/bucket source".toList))
      else
        match env.backend.newS3 url with
        | .error e => ([], .error e)
        | .ok s3 => env.expanded s3 url
    else if url.isRemote then
      match env.backend.newS3 url with
      | .error e => ([], .error e)
      | .ok _ =>
        let (bytes, fails) := env.stream url
        (bytes, match fails with
          | some e => .error e
          | none => .ok ())
    else
      match env.readFile url.absolute with
      | .error e => ([], .error e)
      | .ok data => (data, .ok ())

/-! ## select -/

/-- The options of `select` but for those that the query is built from. -/
structure SelectArgs where
  src : Str
  query : Str
  excludes : List Str := []
  versionId : Option Str := none
  allVersions : Bool := false

/-- An event of the answer to a query. -/
inductive SelectEvent where
  | records (payload : Option (List UInt8))
  | fin
  | other
  deriving DecidableEq, Repr

/-- The answer to a query: its events, and the error that ends them. -/
structure SelectPayload where
  events : List SelectEvent
  fails : Option StorageError := none
  deriving DecidableEq, Repr

structure SelectEnv where
  backend : Backend
  dryRun : Bool := false
  selectObjectContent : Str → Str → Str → Except StorageError SelectPayload

/-- What `S3::select` writes, up to the end of the query. -/
def SelectPayload.forward (fails : Option StorageError) :
    List SelectEvent → List UInt8 × Option StorageError
  | [] => ([], fails)
  | .records payload :: events =>
    (payload.getD [] ++ (forward fails events).1, (forward fails events).2)
  | .fin :: _ => ([], none)
  | .other :: events => forward fails events

/-- `S3::select`: the version of the URL is not asked for. -/
def SelectEnv.select (env : SelectEnv) (query : Str) (src : Url) : List UInt8 × Option StorageError :=
  if env.dryRun then ([], none)
  else
    match env.selectObjectContent query src.bucket src.path with
    | .error e => ([], some e)
    | .ok payload => SelectPayload.forward payload.fails payload.events

/-- The URL of a listed object that a query can read. -/
def selectSource (exclude : List Regex) (srcs : List Url) (obj : Object) : List Url :=
  if obj.typ.isDir then srcs
  else
    match obj.url with
    | none => srcs
    | some u =>
      if isGlacier obj.storageClass then srcs
      else if exclude.any (·.isMatch u.relative) then srcs
      else srcs ++ [u]

/-- Queries the objects one after the other, and keeps the URLs that failed. -/
def SelectEnv.queryAll (env : SelectEnv) (query : Str) (srcs : List Url) : List UInt8 × List Url :=
  (srcs.flatMap fun src => (env.select query src).1,
    srcs.filter fun src => (env.select query src).2.isSome)

/-- `run_expanded`. -/
def SelectEnv.expanded (env : SelectEnv) (query : Str) (exclude : List Regex) (s3 : S3) (url : Url) :
    List UInt8 × Except StorageError Unit :=
  match receive (selectSource exclude) [] (s3.list url) with
  | (_, some e) => ([], .error e)
  | (srcs, none) =>
    if srcs.isEmpty then ([], .error (noObjectsMatched url))
    else
      let (bytes, failed) := env.queryAll query (Collect.sortBy byVersion srcs)
      (bytes, if failed.isEmpty then .ok ()
        else .error (.msg "select failed for one or more objects".toList))

/-- `run` of `select`. -/
def SelectArgs.run (env : SelectEnv) (args : SelectArgs) : List UInt8 × Except StorageError Unit :=
  match Url.new args.src { allVersions := args.allVersions, versionId := args.versionId } with
  | .error e => ([], .error (.msg e))
  | .ok url =>
    if !url.isRemote then ([], .error (.msg "source must be remote".toList))
    else if args.query.isEmpty then ([], .error (.msg "query must be non-empty".toList))
    else
      match env.backend.newS3 url with
      | .error e => ([], .error e)
      | .ok s3 =>
        if !url.expands then
          let (bytes, fails) := env.select args.query url
          (bytes, match fails with
            | some e => .error e
            | none => .ok ())
        else
          match compileGlobs args.excludes with
          | .error e => ([], .error (.msg e))
          | .ok exclude => env.expanded args.query exclude s3 url

/-! ## du -/

/-- `n.to_string()` of a signed number. -/
def signedDecimal (n : Int64) : Str :=
  if n.toInt < 0 then '-' :: Str.decimal n.toInt.natAbs else Str.decimal n.toInt.natAbs

/-- A size as `du` and `ls` print it; `formatSize` makes it readable. -/
def humanizeSize (formatSize : UInt64 → Str) (size : Int64) (humanize : Bool) : Str :=
  if humanize then formatSize (UInt64.ofNat size.toInt.toNat) else signedDecimal size

structure DuArgs where
  target : Str
  humanize : Bool := false
  group : Bool := false
  excludes : List Str := []
  allVersions : Bool := false
  versionId : Option Str := none

structure SizeAndCount where
  size : Int64 := 0
  count : Int64 := 0
  deriving DecidableEq

def SizeAndCount.add (sc : SizeAndCount) (obj : Object) : SizeAndCount :=
  ⟨sc.size + Int64.ofInt obj.size, sc.count + 1⟩

/-- The totals of `du`, and those of each storage class. -/
structure DuTotals where
  total : SizeAndCount := {}
  byClass : Std.ExtTreeMap Str SizeAndCount compare := ∅

/-- Whether `du` counts an object. -/
def duCounts (excludes : List Regex) (obj : Object) : Bool :=
  !obj.typ.isDir && !excludes.any (·.isMatch ((obj.url.map Url.relative).getD []))

def DuTotals.take (excludes : List Regex) (s : DuTotals) (obj : Object) : DuTotals :=
  if duCounts excludes obj then
    { total := s.total.add obj
      byClass := Collect.tally Object.storageClass {} SizeAndCount.add s.byClass obj }
  else s

/-- `annotate_fatal`. -/
def annotateFatal (target : Str) (e : StorageError) : StorageError :=
  let msg := Str.toAsciiLowercase e.displayChain
  if Str.contains "accessdenied".toList msg || Str.contains "nosuchbucket".toList msg then
    .msg ("cannot access ".toList ++ target ++ ": ".toList ++ e.displayChain)
  else e

/-- `size_message`. -/
def sizeMessage (formatSize : UInt64 → Str) (source storageClass : Str) (sc : SizeAndCount)
    (humanize : Bool) : Str :=
  humanizeSize formatSize sc.size humanize ++ " bytes in ".toList ++ signedDecimal sc.count ++
    " objects: ".toList ++ source ++
    if storageClass = [] then [] else " [".toList ++ storageClass ++ "]".toList

/-- `run` of `du`: the lines it prints. -/
def DuArgs.run (formatSize : UInt64 → Str) (b : Backend) (args : DuArgs) :
    Except StorageError (List Str) :=
  match Url.new args.target { allVersions := args.allVersions, versionId := args.versionId } with
  | .error e => .error (.msg e)
  | .ok url =>
    match compileGlobs args.excludes with
    | .error e => .error (.msg e)
    | .ok excludes =>
      match b.newClient url with
      | .error e => .error e
      | .ok client =>
        match receive (DuTotals.take excludes) {} (client.list url false) with
        | (_, some e) => .error (annotateFatal args.target e)
        | (s, none) =>
          if !args.group then .ok [sizeMessage formatSize url.absolute [] s.total args.humanize]
          else .ok (s.byClass.toList.map fun e =>
            sizeMessage formatSize url.absolute e.1 e.2 args.humanize)

/-! ## ls -/

/-- The options of `ls` for a target, but for those of the columns. -/
structure LsArgs where
  target : Str
  allVersions : Bool := false
  versionId : Option Str := none
  startAfter : Option Str := none
  summarize : Bool := false
  humanize : Bool := false
  newerThan : Option Str := none
  olderThan : Option Str := none
  excludes : List Str := []
  includes : List Str := []
  excludeFrom : List Str := []
  includeFrom : List Str := []

/-- What `ls` works with: the time it runs at, and how RFC 3339 times and pattern files are
read. Times are nanoseconds since the Unix epoch. -/
structure LsEnv where
  backend : Backend
  now : Int
  rfc3339 : Str → Except Str Int
  readFile : Str → Except Str Str
  formatSize : UInt64 → Str

/-- `parse_relative_duration`, in seconds. -/
def parseRelativeDuration (s : Str) : Except Str (Option Nat) :=
  let units : List (Char × Nat) := [('s', 1), ('m', 60), ('h', 60 * 60), ('d', 60 * 60 * 24)]
  match s.getLast?.bind fun suffix => units.lookup suffix with
  | none => .ok none
  | some unitSecs =>
    let num := s.dropLast
    if num.isEmpty || !num.all Char.isDigit then .ok none
    else
      match Str.parseUnsigned 64 num with
      | none => .error ("invalid duration `".toList ++ s ++ "`".toList)
      | some n => .ok (some (min (n * unitSecs) (2 ^ 64 - 1)))

/-- `parse_time_bound`. -/
def LsEnv.parseTimeBound (env : LsEnv) (spec : Str) : Except Str Int :=
  let s := Str.trim spec
  if s.isEmpty then .error "empty time value".toList
  else
    match parseRelativeDuration s with
    | .error e => .error e
    | .ok (some secs) =>
      let t := env.now - secs * 1000000000
      -- the seconds of a time are an `i64`
      if t < -(2 ^ 63) * 1000000000 then
        .error ("duration `".toList ++ s ++ "` is too far in the past".toList)
      else .ok t
    | .ok none =>
      match env.rfc3339 s with
      | .ok t => .ok t
      | .error e => .error ("invalid time `".toList ++ s ++
          "`: expected RFC3339 or a duration like 24h/7d/30m/45s (".toList ++ e ++ ")".toList)

def LsEnv.parseTimeBound? (env : LsEnv) (spec : Option Str) : Except Str (Option Int) :=
  match spec with
  | none => .ok none
  | some spec => (env.parseTimeBound spec).map some

/-- The patterns of a file. -/
def patternLines (content : Str) : List Str :=
  ((Str.lines content).map Str.trim).filter fun line => !line.isEmpty && !Str.startsWith ['#'] line

/-- `patterns_with_files`. -/
def patternsWithFiles (readFile : Str → Except Str Str) (inline : List Str) :
    List Str → Except Str (List Str)
  | [] => .ok inline
  | f :: files =>
    match readFile f with
    | .error e => .error ("reading pattern file ".toList ++ f ++ ": ".toList ++ e)
    | .ok content => patternsWithFiles readFile (inline ++ patternLines content) files

/-- What `ls` has shown and added up so far. -/
structure LsState where
  shown : List Object := []
  totalObjects : UInt64 := 0
  totalSize : Int64 := 0

/-- The bounds on `LastModified`: a time is in `[newerThan, olderThan)`. -/
def inWindow (newerThan olderThan : Option Int) (obj : Object) : Bool :=
  if newerThan.isSome || olderThan.isSome then
    match obj.modTime with
    | some t => !newerThan.any (fun lo => t < lo) && !olderThan.any (fun hi => hi ≤ t)
    | none => false
  else true

/-- Whether `ls` shows an entry. -/
def lsShows (filters : Filters) (newerThan olderThan : Option Int) (obj : Object) : Bool :=
  (obj.typ.isDir || !obj.url.any fun u => filters.shouldSkip (filterKey u)) &&
    inWindow newerThan olderThan obj

def LsState.take (filters : Filters) (newerThan olderThan : Option Int) (summarize : Bool)
    (s : LsState) (obj : Object) : LsState :=
  if lsShows filters newerThan olderThan obj then
    let counts := summarize && !obj.typ.isDir
    { shown := s.shown ++ [obj]
      totalObjects := if counts then s.totalObjects + 1 else s.totalObjects
      totalSize := if counts then s.totalSize + Int64.ofInt obj.size else s.totalSize }
  else s

/-- `format_summary`. -/
def formatSummary (formatSize : UInt64 → Str) (totalObjects : UInt64) (totalSize : Int64)
    (humanize : Bool) : Str :=
  "Total objects: ".toList ++ Str.decimal totalObjects.toNat ++ "\nTotal size: ".toList ++
    humanizeSize formatSize totalSize humanize

/-- The loop of `ls`: the entries it shows, and the footer. -/
def LsArgs.list (env : LsEnv) (args : LsArgs) (filters : Filters) (newerThan olderThan : Option Int)
    (objs : List Object) : List Object × Except StorageError (Option Str) :=
  match receive (LsState.take filters newerThan olderThan args.summarize) {} objs with
  | (s, some e) => (s.shown, .error e)
  | (s, none) => (s.shown, .ok (if args.summarize then
      some (formatSummary env.formatSize s.totalObjects s.totalSize args.humanize) else none))

/-- `run` of `ls`, for a target. -/
def LsArgs.run (env : LsEnv) (args : LsArgs) : List Object × Except StorageError (Option Str) :=
  match Url.new args.target { allVersions := args.allVersions, versionId := args.versionId,
                              startAfter := args.startAfter } with
  | .error e => ([], .error (.msg e))
  | .ok url =>
    match env.parseTimeBound? args.newerThan, env.parseTimeBound? args.olderThan,
      patternsWithFiles env.readFile args.includes args.includeFrom,
      patternsWithFiles env.readFile args.excludes args.excludeFrom with
    | .ok newerThan, .ok olderThan, .ok includes, .ok excludes =>
      match Filters.new includes excludes with
      | .error e => ([], .error (.msg e))
      | .ok filters =>
        match env.backend.newClient url with
        | .error e => ([], .error e)
        | .ok client => args.list env filters newerThan olderThan (client.list url true)
    | .error e, _, _, _ => ([], .error (.msg e))
    | .ok _, .error e, _, _ => ([], .error (.msg e))
    | .ok _, .ok _, .error e, _ => ([], .error (.msg e))
    | .ok _, .ok _, .ok _, .error e => ([], .error (.msg e))

/-! ## tree -/

/-- `listing_target`: a pattern for all that is below the target. -/
def treeTarget (display : Url) : Str :=
  let base := display.absolute
  if display.isRemote then
    if display.isBucket then base ++ "/*".toList
    else if Str.endsWith '/' base then base ++ "*".toList
    else base ++ "/*".toList
  else if Str.endsWith '/' base then base ++ "*".toList
  else base ++ "/*".toList

/-- `run` of `tree`: the lines it prints. -/
def TreeArgs.runOn (b : Backend) (args : TreeArgs) (target : Str) : Except StorageError (List Str) :=
  match Url.new target {} with
  | .error e => .error (.msg e)
  | .ok display =>
    match Url.new (treeTarget display) {} with
    | .error e => .error (.msg e)
    | .ok listing =>
      match b.newClient display with
      | .error e => .error e
      | .ok client => args.run display.absolute (client.list listing true)

end Rs5cmd
