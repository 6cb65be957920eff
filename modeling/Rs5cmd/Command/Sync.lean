import Rs5cmd.Command.Cp
import Rs5cmd.Command.SyncStrategy
import Std.Data.ExtTreeMap.Lemmas

/-!
# Planning a `sync` (`command/sync.rs`)

The keyed source and destination listings, and their partition into copies and
deletions. The source's hash maps are `ObjectMap`s; nothing here depends on the
order in which their entries are visited.
-/

namespace Rs5cmd

/-- Objects keyed by relative path. -/
abbrev ObjectMap := Std.ExtTreeMap Str Object compare

/-- The options of `sync` that planning reads. -/
structure SyncArgs where
  delete : Bool := false
  sizeOnly : Bool := false
  checksum : Bool := false
  followSymlinks : Bool := true
  forceGlacierTransfer : Bool := false
  maxDelete : Option Nat := none

/-- `is_fatal`. -/
def isFatal (e : StorageError) : Bool :=
  let msg := Str.toAsciiLowercase e.displayChain
  Str.contains "accessdenied".toList msg || Str.contains "nosuchbucket".toList msg

/-- `skip_glacier`. -/
def skipGlacier (storageClass : Str) (forceGlacierTransfer : Bool) : Bool :=
  !forceGlacierTransfer && isGlacier storageClass

/-- `is_source_batch`. -/
def isSourceBatch (b : Backend) (src : Url) : Except StorageError Bool :=
  if src.isWildcard then .ok true
  else if src.isRemote then .ok (src.isBucket || src.isPrefix)
  else do
    let client ← b.newClient src
    match client.stat src with
    | .ok obj => return obj.typ.isDir
    | .error _ => return false

/-! ## The source map -/

/-- The checksum of a local source file is computed here. -/
def fillChecksum (fs : LocalFs) (checksum : Bool) (u : Url) (obj : Object) : Object :=
  if checksum && !u.isRemote then
    match fs.md5Hex u.absolute with
    | some h => { obj with etag := h }
    | none => obj
  else obj

/-- The single object of a source that is not a batch. -/
def collectSingle (fs : LocalFs) (src : Url) (filters : Filters) (checksum : Bool) (obj : Object) :
    ObjectMap :=
  if obj.typ.isDir then ∅
  else if filters.shouldSkip src.base then ∅
  else
    let obj := { obj with url := some (obj.url.getD src) }
    (∅ : ObjectMap).insert src.base (fillChecksum fs checksum src obj)

/-- One listed source object: the key it is collected under, if any. -/
def keptKey (filters : Filters) (forceGlacierTransfer : Bool) (obj : Object) : Option (Str × Url) :=
  if obj.typ.isDir then none
  else if skipGlacier obj.storageClass forceGlacierTransfer then none
  else
    match obj.url with
    | none => none
    | some u => if filters.shouldSkip u.relative then none else some (u.relative, u)

/-- The receive loop of `collect_source_objects`: the first error aborts. -/
def collectListed (fs : LocalFs) (src : Url) (filters : Filters) (checksum force : Bool) :
    List Object → ObjectMap → Except StorageError ObjectMap
  | [], map => .ok map
  | obj :: rest, map =>
    match obj.err with
    | some err =>
      if isFatal err then
        .error (.msg ("cannot list source ".toList ++ src.absolute ++ ": ".toList ++
          err.displayChain))
      else .error err
    | none =>
      match keptKey filters force obj with
      | none => collectListed fs src filters checksum force rest map
      | some (key, u) =>
        collectListed fs src filters checksum force rest
          (map.insert key (fillChecksum fs checksum u obj))

/-- `collect_source_objects`. -/
def collectSourceObjects (b : Backend) (src : Url) (args : SyncArgs) (isBatch : Bool)
    (filters : Filters) : Except StorageError ObjectMap := do
  let client ← b.newClient src
  if !isBatch then
    let obj ← client.stat src
    return collectSingle b.fs src filters args.checksum obj
  collectListed b.fs src filters args.checksum args.forceGlacierTransfer
    (client.list src args.followSymlinks) ∅

/-! ## The destination map -/

/-- The recursive listing path: the destination, a slash, `*`. -/
def listingPath (dst : Url) : Str :=
  let abs := dst.absolute
  if Str.endsWith '/' abs then abs ++ ['*'] else abs ++ ['/', '*']

/-- A listed destination object: the key it is collected under, if any. -/
def destKey (filters : Filters) (obj : Object) : Option Str :=
  if obj.typ.isDir then none
  else
    match obj.url with
    | none => none
    | some u => if filters.shouldSkip u.relative then none else some u.relative

/-- A destination that does not exist has no objects to compare. -/
def isMissing (e : StorageError) : Bool :=
  Str.contains "no object found".toList e.display || Str.contains "not found".toList e.display

/-- The receive loop of `collect_dest_objects`. -/
def collectDestListed (dst : Url) (filters : Filters) :
    List Object → ObjectMap → Except StorageError ObjectMap
  | [], map => .ok map
  | obj :: rest, map =>
    match obj.err with
    | some err =>
      if isMissing err then collectDestListed dst filters rest map
      else
        let lower := Str.toAsciiLowercase err.display
        if Str.contains "accessdenied".toList lower || Str.contains "nosuchbucket".toList lower then
          .error (.msg ("cannot list destination ".toList ++ dst.absolute ++ ": ".toList ++
            err.display))
        else .error (.msg err.display)
    | none =>
      match destKey filters obj with
      | none => collectDestListed dst filters rest map
      | some key => collectDestListed dst filters rest (map.insert key obj)

/-- `collect_dest_objects`. A destination that cannot be listed is empty. -/
def collectDestObjects (b : Backend) (dst : Url) (filters : Filters) :
    Except StorageError ObjectMap :=
  match Url.parse (listingPath dst) with
  | .error _ => .ok ∅
  | .ok listingUrl =>
    match b.newClient listingUrl with
    | .error _ => .ok ∅
    | .ok client => collectDestListed dst filters (client.list listingUrl false) ∅

/-! ## The partition -/

/-- The name of a source object at the destination. -/
def objname (srcUrl : Url) (isBatch : Bool) : Str :=
  if isBatch then srcUrl.relative else srcUrl.base

/-- `generate_destination_url`. -/
def generateDestinationUrl (srcUrl dst : Url) (isBatch : Bool) : Url :=
  if dst.isRemote then
    if dst.isPrefix || dst.isBucket then dst.join (objname srcUrl isBatch) else dst
  else dst.join (objname srcUrl isBatch)

/-- The two groups the partition builds. -/
structure SyncPlan where
  toCopy : List (Url × Url)
  toDelete : List Url

/-- One iteration of the partition loop over the source entries. -/
def partitionStep (strategy : SyncStrategy) (dst : Url) (isBatch : Bool)
    (acc : List (Url × Url) × ObjectMap) (entry : Str × Object) : List (Url × Url) × ObjectMap :=
  match entry.2.url with
  | none => acc
  | some srcUrl =>
    let destinations := acc.2.erase entry.1
    match acc.2[entry.1]? with
    | some dstObj =>
      if strategy.shouldSync entry.2 dstObj then
        (acc.1 ++ [(srcUrl, generateDestinationUrl srcUrl dst isBatch)], destinations)
      else (acc.1, destinations)
    | none => (acc.1 ++ [(srcUrl, generateDestinationUrl srcUrl dst isBatch)], destinations)

/-- The partition into copies and deletions. -/
def partition (strategy : SyncStrategy) (dst : Url) (isBatch delete : Bool)
    (source dest : ObjectMap) : SyncPlan :=
  let acc := source.toList.foldl (partitionStep strategy dst isBatch) ([], dest)
  ⟨acc.1, if delete then acc.2.toList.filterMap fun e => e.2.url else []⟩

/-- The groups `run` partitions its listings into. The source and the destination
side have their own clients. -/
def syncGroups (bs bd : Backend) (src dst : Url) (args : SyncArgs) (filters : Filters) :
    Except StorageError SyncPlan := do
  let isBatch ← isSourceBatch bs src
  let source ← collectSourceObjects bs src args isBatch filters
  let dest ← collectDestObjects bd dst filters
  return partition (.new args.sizeOnly args.checksum) dst isBatch args.delete source dest

/-- The planning half of `run`: the groups, under the `--max-delete` cap. -/
def syncPlan (bs bd : Backend) (src dst : Url) (args : SyncArgs) (filters : Filters) :
    Except StorageError SyncPlan := do
  let plan ← syncGroups bs bd src dst args filters
  match args.maxDelete with
  | some max =>
    if plan.toDelete.length > max then
      .error (.msg ("aborting sync: --delete would remove ".toList ++
        Nat.toDigits 10 plan.toDelete.length ++ " objects, exceeding --max-delete ".toList ++
        Nat.toDigits 10 max ++ " (nothing was copied or deleted)".toList))
    else return plan
  | none => return plan

end Rs5cmd
