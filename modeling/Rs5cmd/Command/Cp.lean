import Rs5cmd.Command.Filters

/-!
# Expanding the sources of `cp` and `mv` (`command/cp.rs`)

From a source URL and a destination to the list of (source, destination) pairs
that are transferred.
-/

namespace Rs5cmd

/-- The options of `cp` that the expansion reads. -/
structure CpArgs where
  followSymlinks : Bool := true
  versionId : Option Str := none
  allVersions : Bool := false

/-- `std::fs::metadata(path).map(|m| m.is_dir()).unwrap_or(false)`. -/
def LocalFs.isDirPath (fs : LocalFs) (path : Str) : Bool :=
  match fs.metadata path with
  | .ok m => m.kind == .dir
  | .error _ => false

/-- Whether `dst` can receive several objects: a bucket or prefix, or a local
directory (existing, or spelled with a trailing `/`). -/
def destIsDirLike (fs : LocalFs) (dst : Url) : Bool :=
  if dst.isRemote then dst.isBucket || Str.endsWith '/' dst.absolute
  else Str.endsWith '/' dst.absolute || fs.isDirPath dst.absolute

/-- `resolve_single_dest`. -/
def resolveSingleDest (fs : LocalFs) (src dst : Url) : Url :=
  if destIsDirLike fs dst then dst.join src.base else dst

/-- `versioned_dest`: the version id is appended to the base name, or to the
single named destination. -/
def versionedDest (src dst : Url) (dstIsDir : Bool) : Url :=
  if dstIsDir then dst.join (src.base ++ '_' :: src.versionId)
  else { dst with path := dst.path ++ '_' :: src.versionId }

/-- What `expand_all_versions` keeps of a listing: a body and a version id. -/
def keptVersion (obj : Object) : Option Url :=
  if obj.err.isSome then none
  else if obj.isDeleteMarker || obj.typ.isDir then none
  else
    match obj.url with
    | none => none
    | some u => if u.versionId = [] then none else some u

/-- `expand_all_versions`, given the listing. -/
def expandAllVersions (fs : LocalFs) (dst : Url) (objs : List Object) : List (Url × Url) :=
  let dstIsDir := destIsDirLike fs dst
  (objs.filterMap keptVersion).map fun u => (u, versionedDest u dst dstIsDir)

/-- What the expansion keeps of a listing: no error, no directory, not
filtered out. -/
def keptSource (filters : Filters) (obj : Object) : Option Url :=
  if obj.err.isSome then none
  else
    match obj.url with
    | none => none
    | some u =>
      if obj.typ.isDir then none
      else if filters.shouldSkip (filterKey u) then none
      else some u

/-- Whether the source expands by listing. -/
def isMulti (fs : LocalFs) (src : Url) : Bool :=
  if src.isWildcard then true
  else if src.isRemote then src.isBucket || src.isPrefix
  else fs.isDirPath src.absolute

/-- `--all-versions` against a remote source without wildcards. -/
def expandsVersions (src : Url) : Bool := src.isRemote && src.allVersions && !src.isWildcard

/-- `expand_sources`. -/
def expandSources (b : Backend) (src dst : Url) (followSymlinks : Bool) (filters : Filters) :
    Except StorageError (List (Url × Url)) := do
  let client ← b.newClient src
  if expandsVersions src then
    return expandAllVersions b.fs dst (client.list src followSymlinks)
  if !isMulti b.fs src then
    return [(src, resolveSingleDest b.fs src dst)]
  return ((client.list src followSymlinks).filterMap (keptSource filters)).map fun u =>
    (u, dst.join u.relative)

/-! ## The whole command line -/

/-- The expansions of the sources of one command line, in order. -/
def expandAll (b : Backend) (args : CpArgs) (dst : Url) (filters : Filters) :
    List Str → Except StorageError (List (Url × Url))
  | [] => .ok []
  | raw :: raws => do
    let src ← (Url.new raw { versionId := args.versionId, allVersions := args.allVersions }).mapError
      StorageError.msg
    let expanded ← expandSources b src dst args.followSymlinks filters
    let rest ← expandAll b args dst filters raws
    return expanded ++ rest

/-- The planning half of `run`: the last path is the destination, every other
one a source. -/
def cpPairs (b : Backend) (args : CpArgs) (isMove : Bool) (paths : List Str) (filters : Filters) :
    Except StorageError (List (Url × Url)) :=
  let op := if isMove then "mv".toList else "cp".toList
  match paths.getLast? with
  | none => .error (.msg (op ++ " requires at least one source and a destination".toList))
  | some dstRaw =>
    let srcRaws := paths.dropLast
    if srcRaws.isEmpty then
      .error (.msg (op ++ " requires at least one source and a destination".toList))
    else do
      let dst ← (Url.parse dstRaw).mapError StorageError.msg
      if srcRaws.length > 1 && !destIsDirLike b.fs dst then
        .error (.msg (op ++ ": destination ".toList ++ dstRaw ++
          " must be a directory or s3 prefix when copying multiple sources".toList))
      else if srcRaws.length > 1 && (args.versionId.isSome || args.allVersions) then
        .error (.msg "--version-id/--all-versions require exactly one source".toList)
      else expandAll b args dst filters srcRaws

end Rs5cmd
