import Rs5cmd.Lib.Bytes
import Rs5cmd.Lib.Hoare
import Rs5cmd.Mount.Inode
import Rs5cmd.Storage.Object
import Rs5cmd.Storage.S3.Download
import Mathlib.Logic.Function.Basic

/-!
# The mount's VFS core (`mount/vfs.rs`, `mount/writer.rs`)

The inode table, the attribute and directory caches, the open handles with their
write-back cache files, and the bucket behind them. Every operation is a command
over this state. The outcome of each request and of each local file operation is
given by an `Io`, so a statement about every `Io` is one about every failure.

Hash maps are visited in an order the code does not determine; an `Io` names that
order too. A failed request may still have been applied by the server.
-/

namespace Rs5cmd

/-! ## State -/

/-- Errors of the VFS: `DirNotEmpty`, `AlreadyExists`, or one of the storage
layer. -/
inductive MountError where
  | storage (e : StorageError)
  | dirNotEmpty
  | alreadyExists
  deriving DecidableEq, Repr

structure Attr where
  ino : Nat
  kind : NodeKind
  size : Nat
  mtime : Int
  deriving DecidableEq, Repr

structure DirEntry where
  ino : Nat
  name : Str
  kind : NodeKind
  deriving DecidableEq, Repr

/-- A file of the cache directory: `h{fh}.tmp` of a handle, `t{id}.tmp` of a
truncation, `e{id}.tmp` of an empty object. -/
inductive CacheFile where
  | h (fh : Nat)
  | t (id : Nat)
  | e (id : Nat)
  deriving DecidableEq, Repr

/-- `Writer`: a handle's cache file and where it is uploaded to. -/
structure Writer where
  path : CacheFile
  dst : Url
  size : Nat
  dirty : Bool
  deriving DecidableEq, Repr

/-- What backs an open handle. A read handle's reader is known here by the object
it reads and its size. -/
inductive HandleKind where
  | read (src : Url) (size : Nat)
  | write (w : Writer)
  deriving DecidableEq, Repr

structure OpenFile where
  ino : Nat
  kind : HandleKind
  deriving DecidableEq, Repr

/-- An object of the bucket. -/
structure Stored where
  bytes : List UInt8
  modTime : Option Int
  deriving DecidableEq, Repr

/-- The settings of a mount. The bucket name comes from a parsed URL. -/
structure VfsConfig where
  bucket : Str
  attrTtl : Nat
  dirTtl : Nat
  startTime : Int
  bucket_ne : bucket ≠ []
  bucket_slash : '/' ∉ bucket
  bucket_glob : hasGlobCharacter bucket = false

structure Vfs where
  inodes : InodeTable
  attrCache : Std.ExtTreeMap Nat (Attr × Nat) compare := ∅
  dirCache : Std.ExtTreeMap Nat (List DirEntry × Nat) compare := ∅
  handles : Std.ExtTreeMap Nat OpenFile compare := ∅
  /-- Files with unflushed local writes, with their size and time. -/
  dirtySizes : Std.ExtTreeMap Nat (Nat × Int) compare := ∅
  nextFh : Nat := 0
  /-- The files of the cache directory. -/
  cache : CacheFile → Option (List UInt8) := fun _ => none
  /-- The objects of the bucket. -/
  bucket : Str → Option Stored

/-- `Vfs::new` over a bucket. -/
def Vfs.new (rootKey : Str) (bucket : Str → Option Stored) : Vfs where
  inodes := .new rootKey
  bucket := bucket

/-- The outcome of a request: `none` succeeds; a failure may have been applied. -/
abbrev RequestFault := Option (StorageError × Bool)

/-- What the requests, the local file system and the clocks answer during one
operation. `stat` and `list` are the operation's own requests, `statAttr` the one
of a `getattr` inside it, `listAll` the recursive listing of a rename. -/
structure Io where
  stat : Option StorageError := none
  statAttr : Option StorageError := none
  list : List Object := []
  listAll : List Object := []
  readRange : Nat → Nat → Except StorageError (List UInt8) := fun _ _ => .ok []
  download : Option StorageError := none
  upload : RequestFault := none
  copy : Nat → RequestFault := fun _ => none
  delete : Nat → RequestFault := fun _ => none
  openCache : Option StorageError := none
  metadata : Option StorageError := none
  write : WriteFault := none
  readAt : Option StorageError := none
  setLen : Option StorageError := none
  syncAll : Option StorageError := none
  instant : Nat := 0
  now : Int := 0
  order : List Nat := []

abbrev VfsM (α : Type) := Cmd Vfs MountError α

open Cmd

/-! ## Helpers -/

def notFound (s : Str) : MountError := .storage (.objectNotFound s)

/-- `is_not_found`. -/
def MountError.isNotFound : MountError → Bool
  | .storage (.objectNotFound _) => true
  | _ => false

/-- `is_no_object`. -/
def isNoObject : StorageError → Bool
  | .noObjectFound => true
  | _ => false

namespace VfsConfig

/-- `obj_url`, `list_url`: both parse the same text. -/
def objUrl (cfg : VfsConfig) (key : Str) : Except MountError Url :=
  match Url.parse ("s3://".toList ++ cfg.bucket ++ '/' :: key) with
  | .ok u => .ok u
  | .error e => .error (.storage (.msg e))

def dirAttr (cfg : VfsConfig) (ino : Nat) : Attr := ⟨ino, .dir, 0, cfg.startTime⟩

def fileAttr (cfg : VfsConfig) (ino : Nat) (obj : Object) : Attr :=
  ⟨ino, .file, (max obj.size 0).toNat, obj.modTime.getD cfg.startTime⟩

end VfsConfig

namespace Vfs

def node (ino : Nat) : VfsM Node := do
  let s ← get
  match s.inodes.get ino with
  | some n => return n
  | none => fail (notFound ("inode ".toList ++ Str.decimal ino))

def intern (key : Str) (kind : NodeKind) (parent : Nat) : VfsM Nat := fun s =>
  let (ino, inodes) := s.inodes.intern key kind parent
  (.ok ino, { s with inodes := inodes })

def forget (ino : Nat) : VfsM Unit := modify fun s => { s with inodes := s.inodes.forget ino }

def allocFh : VfsM Nat := fun s => (.ok (s.nextFh + 1), { s with nextFh := s.nextFh + 1 })

def cachedAttr (s : Vfs) (cfg : VfsConfig) (io : Io) (ino : Nat) : Option Attr :=
  s.attrCache[ino]?.bind fun e => if io.instant - e.2 < cfg.attrTtl then some e.1 else none

def storeAttr (io : Io) (a : Attr) : VfsM Unit :=
  modify fun s => { s with attrCache := s.attrCache.insert a.ino (a, io.instant) }

def invalidateAttr (ino : Nat) : VfsM Unit :=
  modify fun s => { s with attrCache := s.attrCache.erase ino }

def cachedDir (s : Vfs) (cfg : VfsConfig) (io : Io) (ino : Nat) : Option (List DirEntry) :=
  s.dirCache[ino]?.bind fun e => if io.instant - e.2 < cfg.dirTtl then some e.1 else none

def storeDir (io : Io) (ino : Nat) (entries : List DirEntry) : VfsM Unit :=
  modify fun s => { s with dirCache := s.dirCache.insert ino (entries, io.instant) }

def invalidateDir (ino : Nat) : VfsM Unit :=
  modify fun s => { s with dirCache := s.dirCache.erase ino }

def setDirtySize (io : Io) (ino size : Nat) : VfsM Unit :=
  modify fun s => { s with dirtySizes := s.dirtySizes.insert ino (size, io.now) }

def clearDirtySize (ino : Nat) : VfsM Unit :=
  modify fun s => { s with dirtySizes := s.dirtySizes.erase ino }

def insertHandle (fh : Nat) (of : OpenFile) : VfsM Unit :=
  modify fun s => { s with handles := s.handles.insert fh of }

/-- The contents of a cache file. -/
def setCache (p : CacheFile) (b : Option (List UInt8)) : VfsM Unit :=
  modify fun s => { s with cache := Function.update s.cache p b }

def putObject (key : Str) (o : Option Stored) : VfsM Unit :=
  modify fun s => { s with bucket := Function.update s.bucket key o }

/-! ## Requests -/

/-- `S3::stat`. -/
def stat (fault : Option StorageError) (u : Url) : VfsM Object := do
  match fault with
  | some e => fail (.storage e)
  | none =>
    let s ← get
    match s.bucket u.path with
    | some o => return { url := some u, typ := .file, size := o.bytes.length, modTime := o.modTime }
    | none => fail (notFound u.absolute)

/-- A request that changes the bucket with `apply`. -/
def request (fault : RequestFault) (apply : VfsM Unit) : VfsM Unit := do
  match fault with
  | none => apply
  | some (e, applied) =>
    if applied then apply
    fail (.storage e)

/-- `S3::upload` of a cache file. -/
def upload (io : Io) (file : CacheFile) (dst : Url) : VfsM Unit := do
  let s ← get
  match s.cache file with
  | none => fail (.storage (.msg "No such file or directory (os error 2)".toList))
  | some bytes => request io.upload (putObject dst.path (some ⟨bytes, some io.now⟩))

/-- `S3::delete`. -/
def delete (fault : RequestFault) (u : Url) : VfsM Unit := request fault (putObject u.path none)

/-- `S3::copy`. -/
def copy (fault : RequestFault) (io : Io) (src dst : Url) : VfsM Unit := do
  let s ← get
  match s.bucket src.path with
  | none => fail (.storage (.msg "NoSuchKey".toList))
  | some o => request fault (putObject dst.path (some ⟨o.bytes, some io.now⟩))

/-- `open_cache_file`. -/
def openCacheFile (io : Io) (p : CacheFile) (truncate : Bool) : VfsM Unit := do
  match io.openCache with
  | some e => fail (.storage e)
  | none =>
    let s ← get
    match s.cache p with
    | some b => setCache p (some (if truncate then [] else b))
    | none => setCache p (some [])

/-- `prefix_exists`, given the listing's answer. -/
def prefixExists (cfg : VfsConfig) (objs : List Object) (dirKey : Str) : VfsM Bool := do
  let _ ← ofExcept (cfg.objUrl dirKey)
  match objs with
  | [] => return false
  | obj :: _ =>
    match obj.err with
    | some e => if isNoObject e then return false else fail (.storage e)
    | none => return true

/-- `dir_is_empty`, given the listing's answer. -/
def dirIsEmptyLoop (dirKey : Str) : List Object → VfsM Bool
  | [] => return true
  | obj :: objs =>
    match obj.err with
    | some e => if isNoObject e then return true else fail (.storage e)
    | none =>
      match obj.url with
      | some u => if u.path ≠ dirKey then return false else dirIsEmptyLoop dirKey objs
      | none => dirIsEmptyLoop dirKey objs

def dirIsEmpty (cfg : VfsConfig) (objs : List Object) (dirKey : Str) : VfsM Bool := do
  let _ ← ofExcept (cfg.objUrl dirKey)
  dirIsEmptyLoop dirKey objs

/-! ## Attributes and lookups -/

def getattr (cfg : VfsConfig) (io : Io) (ino : Nat) : VfsM Attr := do
  let n ← node ino
  match n.kind with
  | .dir => return cfg.dirAttr ino
  | .file =>
    let s ← get
    match s.dirtySizes[ino]? with
    | some (size, mtime) => return ⟨ino, .file, size, mtime⟩
    | none =>
      match s.cachedAttr cfg io ino with
      | some a => return a
      | none =>
        let url ← ofExcept (cfg.objUrl n.key)
        let obj ← stat io.statAttr url
        let attr := cfg.fileAttr ino obj
        storeAttr io attr
        return attr

/-- A still-dirty file, or one in a fresh listing of its directory. -/
def pendingOrCached (s : Vfs) (cfg : VfsConfig) (io : Io) (parent : Nat) (fileKey name : Str) :
    Option Nat :=
  match (s.inodes.lookupKey fileKey).bind fun ino => if s.dirtySizes.contains ino then some ino else none with
  | some ino => some ino
  | none =>
    (s.cachedDir cfg io parent).bind fun entries =>
      (entries.find? fun e => e.name = name).map DirEntry.ino

def lookup (cfg : VfsConfig) (io : Io) (parent : Nat) (name : Str) : VfsM Attr := do
  let p ← node parent
  if !p.kind.isDir then fail (notFound name)
  else
    let fileKey := p.key ++ name
    let s ← get
    match s.pendingOrCached cfg io parent fileKey name with
    | some ino => getattr cfg io ino
    | none =>
      let url ← ofExcept (cfg.objUrl fileKey)
      match ← attempt (stat io.stat url) with
      | .ok obj =>
        let ino ← intern fileKey .file parent
        let attr := cfg.fileAttr ino obj
        storeAttr io attr
        return attr
      | .error e =>
        if e.isNotFound then
          let dirKey := p.key ++ name ++ ['/']
          if ← prefixExists cfg io.list dirKey then
            let ino ← intern dirKey .dir parent
            return cfg.dirAttr ino
          else fail (notFound name)
        else fail e

/-! ## Directory listings -/

/-- The accumulators of the listing loop: entries, attributes and the names seen. -/
structure Listing where
  entries : List DirEntry := []
  attrs : List Attr := []
  seen : List Str := []

/-- One object of the listing; `none` ends the loop. -/
def readdirStep (cfg : VfsConfig) (ino : Nat) (n : Node) (acc : Listing) (obj : Object) :
    VfsM (Option Listing) := do
  match obj.err with
  | some e => if isNoObject e then return none else fail (.storage e)
  | none =>
    match obj.url with
    | none => return some acc
    | some u =>
      let rel := (Str.stripPrefix n.key u.path).getD u.path
      if rel = [] then return some acc
      else
        match obj.typ with
        | .dir =>
          let name := Str.trimEndMatches '/' rel
          if name = [] ∨ name ∈ acc.seen then return some acc
          else
            let cino ← intern (n.key ++ name ++ ['/']) .dir ino
            return some {
              entries := acc.entries ++ [⟨cino, name, .dir⟩]
              attrs := acc.attrs ++ [cfg.dirAttr cino]
              seen := name :: acc.seen }
        | .file =>
          if rel ∈ acc.seen then return some acc
          else
            let cino ← intern (n.key ++ rel) .file ino
            return some {
              entries := acc.entries ++ [⟨cino, rel, .file⟩]
              attrs := acc.attrs ++ [cfg.fileAttr cino obj]
              seen := rel :: acc.seen }
        | _ => return some acc

def readdirLoop (cfg : VfsConfig) (ino : Nat) (n : Node) : List Object → Listing → VfsM Listing
  | [], acc => return acc
  | obj :: objs, acc => do
    match ← readdirStep cfg ino n acc obj with
    | some acc => readdirLoop cfg ino n objs acc
    | none => return acc

/-- `dirty_children`: files open for writing in the directory, with their names. -/
def dirtyChildren (s : Vfs) (io : Io) (ino : Nat) : List (Nat × Str) :=
  match s.inodes.get ino with
  | none => []
  | some p =>
    (Maps.inOrder io.order s.handles.toList).filterMap fun e =>
      match e.2.kind with
      | .read .. => none
      | .write _ =>
        match s.inodes.get e.2.ino with
        | none => none
        | some n =>
          if n.parent = ino ∧ n.kind = .file then
            match Str.stripPrefix p.key n.key with
            | some name => if name ≠ [] ∧ '/' ∉ name then some (e.2.ino, name) else none
            | none => none
          else none

/-- The dirty children that the listing does not show. -/
def mergeDirty (acc : Listing) : List (Nat × Str) → List DirEntry
  | [] => acc.entries
  | (cino, name) :: rest =>
    if name ∈ acc.seen then mergeDirty acc rest
    else mergeDirty { acc with
      entries := acc.entries ++ [⟨cino, name, .file⟩], seen := name :: acc.seen } rest

def readdir (cfg : VfsConfig) (io : Io) (ino : Nat) : VfsM (List DirEntry) := do
  let n ← node ino
  if !n.kind.isDir then fail (notFound ("inode ".toList ++ Str.decimal ino))
  else
    let s ← get
    match s.cachedDir cfg io ino with
    | some entries => return entries
    | none =>
      let _ ← ofExcept (cfg.objUrl n.key)
      let acc ← readdirLoop cfg ino n io.list {}
      let s ← get
      let entries := mergeDirty acc (s.dirtyChildren io ino)
      forEach (storeAttr io) acc.attrs
      storeDir io ino entries
      return entries

/-! ## Reading -/

/-- `read`: a direct ranged read. -/
def read (cfg : VfsConfig) (io : Io) (ino offset size : Nat) : VfsM (List UInt8) := do
  let n ← node ino
  if n.kind.isDir then
    fail (notFound ("inode ".toList ++ Str.decimal ino ++ " is a directory".toList))
  else
    let attr ← getattr cfg io ino
    if offset ≥ attr.size then return []
    else
      let _ ← ofExcept (cfg.objUrl n.key)
      ofExcept ((io.readRange offset (min size (attr.size - offset))).mapError .storage)

/-- `Writer::read`. -/
def readWriter (io : Io) (w : Writer) (offset size : Nat) : VfsM (List UInt8) := do
  if offset ≥ w.size then return []
  else
    match io.readAt with
    | some e => fail (.storage e)
    | none =>
      let s ← get
      return ((s.cache w.path).getD []).drop offset |>.take (min size (w.size - offset))

/-- `read_handle`. What a chunked reader returns is up to its requests. -/
def readHandle (cfg : VfsConfig) (io : Io) (ino fh offset size : Nat) : VfsM (List UInt8) := do
  let s ← get
  match s.handles[fh]? with
  | some ⟨_, .read _ _⟩ => ofExcept ((io.readRange offset size).mapError .storage)
  | some ⟨_, .write w⟩ => readWriter io w offset size
  | none => read cfg io ino offset size

/-! ## Opening -/

/-- `O_ACCMODE`, `O_TRUNC`. -/
def oAccmode : BitVec 32 := 3
def oTrunc : BitVec 32 := 0o1000

def opensForWriting (flags : BitVec 32) : Bool :=
  flags &&& oAccmode ≠ 0 || flags &&& oTrunc ≠ 0

/-- `S3::download` into a cache file; a failed one leaves a file that the caller
removes. -/
def downloadTo (io : Io) (src : Url) (p : CacheFile) : VfsM Unit := do
  match io.download with
  | some e => fail (.storage e)
  | none =>
    let s ← get
    match s.bucket src.path with
    | some o => setCache p (some o.bytes)
    | none => fail (notFound src.absolute)

/-- The cache file of a handle opened for writing: its size and whether it is
dirty. The object may vanish between the request for it and the download. -/
def populate (io : Io) (trunc : Bool) (dst : Url) (p : CacheFile) : VfsM (Nat × Bool) := do
  if trunc then
    openCacheFile io p true
    return (0, true)
  else
    match ← attempt (stat io.stat dst) with
    | .ok _ =>
      match ← attempt (downloadTo io dst p) with
      | .ok () =>
        openCacheFile io p false
        let s ← get
        let len := match io.metadata with
          | none => ((s.cache p).getD []).length
          | some _ => 0
        return (len, false)
      | .error e =>
        setCache p none
        if e.isNotFound then
          openCacheFile io p true
          return (0, true)
        else fail e
    | .error e =>
      if e.isNotFound then
        openCacheFile io p true
        return (0, true)
      else fail e

def openFile (cfg : VfsConfig) (io : Io) (ino : Nat) (flags : BitVec 32) : VfsM Nat := do
  let n ← node ino
  if n.kind.isDir then
    fail (notFound ("inode ".toList ++ Str.decimal ino ++ " is a directory".toList))
  else
    let fh ← allocFh
    if !opensForWriting flags then
      let attr ← getattr cfg io ino
      let url ← ofExcept (cfg.objUrl n.key)
      insertHandle fh ⟨ino, .read url attr.size⟩
      return fh
    else
      let dst ← ofExcept (cfg.objUrl n.key)
      let (size, dirty) ← populate io (flags &&& oTrunc ≠ 0) dst (.h fh)
      insertHandle fh ⟨ino, .write ⟨.h fh, dst, size, dirty⟩⟩
      setDirtySize io ino size
      storeAttr io ⟨ino, .file, size, io.now⟩
      return fh

def create (cfg : VfsConfig) (io : Io) (parent : Nat) (name : Str) : VfsM (Nat × Nat × Attr) := do
  let p ← node parent
  if !p.kind.isDir then fail (notFound name)
  else
    let fileKey := p.key ++ name
    let ino ← intern fileKey .file parent
    let fh ← allocFh
    openCacheFile io (.h fh) true
    let dst ← ofExcept (cfg.objUrl fileKey)
    insertHandle fh ⟨ino, .write ⟨.h fh, dst, 0, true⟩⟩
    setDirtySize io ino 0
    let attr : Attr := ⟨ino, .file, 0, io.now⟩
    storeAttr io attr
    invalidateDir parent
    return (ino, fh, attr)

/-! ## Writing -/

/-- `write_handle_of`. -/
def writeHandleOf (fh : Nat) : VfsM (Nat × Writer) := do
  let s ← get
  match s.handles[fh]? with
  | some ⟨ino, .write w⟩ => return (ino, w)
  | some ⟨_, .read _ _⟩ =>
    fail (.storage (.msg ("handle ".toList ++ Str.decimal fh ++ " is not open for writing".toList)))
  | none => fail (.storage (.msg ("unknown handle ".toList ++ Str.decimal fh)))

/-- The writer of a handle, after a change. -/
def setWriter (fh ino : Nat) (w : Writer) : VfsM Unit := insertHandle fh ⟨ino, .write w⟩

/-- `u64::saturating_add`. -/
def saturatingAdd (a b : Nat) : Nat := min (a + b) (2 ^ 64 - 1)

/-- `Writer::write`: a write that fails may have changed the file already. -/
def writeWriter (io : Io) (fh ino : Nat) (w : Writer) (offset : Nat) (data : List UInt8) :
    VfsM Writer := do
  let s ← get
  setCache w.path (some (Bytes.writeAt offset (io.write.written data) ((s.cache w.path).getD [])))
  match io.write.result with
  | .error e => fail (.storage e)
  | .ok () =>
    let w' := { w with size := max w.size (saturatingAdd offset data.length), dirty := true }
    setWriter fh ino w'
    return w'

def writeHandle (io : Io) (fh offset : Nat) (data : List UInt8) : VfsM Nat := do
  let (ino, w) ← writeHandleOf fh
  let w' ← writeWriter io fh ino w offset data
  setDirtySize io ino w'.size
  storeAttr io ⟨ino, .file, w'.size, io.now⟩
  return data.length

/-- `Writer::flush`. -/
def flushWriter (io : Io) (w : Writer) : VfsM Writer := do
  if !w.dirty then return w
  else
    match io.syncAll with
    | some e => fail (.storage e)
    | none =>
      upload io w.path w.dst
      return { w with dirty := false }

def flushHandle (io : Io) (fh : Nat) : VfsM Unit := do
  let s ← get
  match s.handles[fh]? with
  | some ⟨ino, .write w⟩ =>
    let w' ← flushWriter io w
    setWriter fh ino w'
  | _ => pure ()

/-- The parent inode of `ino`; the root stands in for an unknown one. -/
def parentOf (s : Vfs) (ino : Nat) : Nat :=
  match s.inodes.get ino with
  | some n => n.parent
  | none => rootInode

/-- `release`: the handle goes first, and the writer is dropped at the end; a
dirty one leaves its cache file behind. -/
def release (io : Io) (fh : Nat) : VfsM Unit := do
  let s ← get
  match s.handles[fh]? with
  | none => pure ()
  | some of =>
    modify fun s => { s with handles := s.handles.erase fh }
    match of.kind with
    | .read _ _ => pure ()
    | .write w =>
      match ← attempt (flushWriter io w) with
      | .error e => fail e
      | .ok w' =>
        clearDirtySize of.ino
        storeAttr io ⟨of.ino, .file, w'.size, io.now⟩
        let s ← get
        invalidateDir (s.parentOf of.ino)
        setCache w'.path none

/-! ## Truncating -/

/-- `find_write_handle`: the given handle if it writes to `ino`, else the first
one that does. -/
def findWriteHandle (s : Vfs) (io : Io) (ino : Nat) (fh : Option Nat) : Option (Nat × Writer) :=
  let given := fh.bind fun fh =>
    match s.handles[fh]? with
    | some ⟨hino, .write w⟩ => if hino = ino then some (fh, w) else none
    | _ => none
  match given with
  | some r => some r
  | none =>
    (Maps.inOrder io.order s.handles.toList).findSome? fun e =>
      match e.2.kind with
      | .write w => if e.2.ino = ino then some (e.1, w) else none
      | .read .. => none

/-- The object of a truncation, or an empty file when there is none. -/
def truncateLoad (io : Io) (dst : Url) (p : CacheFile) : VfsM Unit := do
  match ← attempt (stat io.stat dst) with
  | .ok _ => downloadTo io dst p
  | .error e => if e.isNotFound then setCache p (some []) else fail e

/-- `truncate_object_inner`. -/
def truncateObjectInner (io : Io) (dst : Url) (p : CacheFile) (newSize : Nat) : VfsM Unit := do
  truncateLoad io dst p
  openCacheFile io p false
  match io.setLen, io.syncAll with
  | some e, _ => fail (.storage e)
  | none, some e => fail (.storage e)
  | none, none =>
    let s ← get
    setCache p (some (Bytes.setLen newSize ((s.cache p).getD [])))
    upload io p dst

/-- `truncate_object`: the cache file is removed on every path. -/
def truncateObject (cfg : VfsConfig) (io : Io) (ino newSize : Nat) : VfsM Unit := do
  let n ← node ino
  let dst ← ofExcept (cfg.objUrl n.key)
  let id ← allocFh
  let result ← attempt (truncateObjectInner io dst (.t id) newSize)
  setCache (.t id) none
  let _ ← ofExcept result
  storeAttr io ⟨ino, .file, newSize, io.now⟩

def setattr (cfg : VfsConfig) (io : Io) (ino : Nat) (size fh : Option Nat) : VfsM Attr := do
  match size with
  | none => pure ()
  | some newSize =>
    let s ← get
    match s.findWriteHandle io ino fh with
    | some (h, w) =>
      match io.setLen with
      | some e => fail (.storage e)
      | none =>
        setCache w.path (some (Bytes.setLen newSize ((s.cache w.path).getD [])))
        setWriter h ino { w with size := newSize, dirty := true }
        setDirtySize io ino newSize
        storeAttr io ⟨ino, .file, newSize, io.now⟩
    | none => truncateObject cfg io ino newSize
  getattr cfg io ino

/-! ## The namespace -/

/-- Drops what the caches and the inode table know of a removed file. -/
def dropFile (fileKey : Str) : VfsM Unit := do
  let s ← get
  match s.inodes.lookupKey fileKey with
  | some ino =>
    invalidateAttr ino
    clearDirtySize ino
    forget ino
  | none => pure ()

def unlink (cfg : VfsConfig) (io : Io) (parent : Nat) (name : Str) : VfsM Unit := do
  let p ← node parent
  let fileKey := p.key ++ name
  let url ← ofExcept (cfg.objUrl fileKey)
  delete (io.delete 0) url
  dropFile fileKey
  invalidateDir parent

/-- `put_empty_object`. -/
def putEmptyObject (cfg : VfsConfig) (io : Io) (key : Str) : VfsM Unit := do
  let url ← ofExcept (cfg.objUrl key)
  let id ← allocFh
  match io.openCache with
  | some e => fail (.storage e)
  | none =>
    setCache (.e id) (some [])
    let res ← attempt (upload io (.e id) url)
    setCache (.e id) none
    ofExcept res

def mkdir (cfg : VfsConfig) (io : Io) (parent : Nat) (name : Str) : VfsM Attr := do
  let p ← node parent
  let fileKey := p.key ++ name
  let dirKey := p.key ++ name ++ ['/']
  let url ← ofExcept (cfg.objUrl fileKey)
  match ← attempt (stat io.stat url) with
  | .ok _ => fail .alreadyExists
  | .error e =>
    if !e.isNotFound then fail e
    else if ← prefixExists cfg io.list dirKey then fail .alreadyExists
    else
      putEmptyObject cfg io dirKey
      let ino ← intern dirKey .dir parent
      invalidateDir parent
      return cfg.dirAttr ino

def rmdir (cfg : VfsConfig) (io : Io) (parent : Nat) (name : Str) : VfsM Unit := do
  let p ← node parent
  let dirKey := p.key ++ name ++ ['/']
  if !(← dirIsEmpty cfg io.list dirKey) then fail .dirNotEmpty
  else
    let url ← ofExcept (cfg.objUrl dirKey)
    delete (io.delete 0) url
    let s ← get
    match s.inodes.lookupKey dirKey with
    | some ino =>
      invalidateDir ino
      forget ino
    | none => pure ()
    invalidateDir parent

/-! ## Renaming -/

/-- Drops the inode that the overwritten destination of a rename had. -/
def dropStale (newFile : Str) : VfsM Unit := do
  let s ← get
  match s.inodes.lookupKey newFile with
  | some d =>
    invalidateAttr d
    forget d
  | none => pure ()

/-- Points an open writer of the file, the first one found, at the new key. -/
def repoint (cfg : VfsConfig) (io : Io) (ino : Nat) (newFile : Str) : VfsM Unit := do
  let s ← get
  match s.findWriteHandle io ino none with
  | none => pure ()
  | some (fh, w) =>
    match cfg.objUrl newFile with
    | .ok url => setWriter fh ino { w with dst := url }
    | .error _ => pure ()

/-- What a file rename does to the inode table and to one open writer. -/
def rekeyFile (cfg : VfsConfig) (io : Io) (oldFile newFile : Str) : VfsM Unit := do
  dropStale newFile
  let s ← get
  match s.inodes.lookupKey oldFile with
  | none => pure ()
  | some ino =>
    modify fun s => { s with inodes := s.inodes.rekey ino newFile }
    invalidateAttr ino
    repoint cfg io ino newFile

/-- The copy and the delete of a file rename. -/
def moveFile (cfg : VfsConfig) (io : Io) (oldFile newFile : Str) : VfsM Unit := do
  let src ← ofExcept (cfg.objUrl oldFile)
  let dst ← ofExcept (cfg.objUrl newFile)
  copy (io.copy 0) io src dst
  delete (io.delete 0) src

def renameFile (cfg : VfsConfig) (io : Io) (parent newparent : Nat) (oldFile newFile : Str) :
    VfsM Unit := do
  moveFile cfg io oldFile newFile
  rekeyFile cfg io oldFile newFile
  invalidateDir parent
  invalidateDir newparent

/-- The keys of the recursive listing. -/
def listedKeys : List Object → VfsM (List Str)
  | [] => return []
  | obj :: objs =>
    match obj.err with
    | some e => if isNoObject e then return [] else fail (.storage e)
    | none => do
      let rest ← listedKeys objs
      return (obj.url.map Url.path).toList ++ rest

def copyKeys (cfg : VfsConfig) (io : Io) (oldPrefix newPrefix : Str) (keys : List Str) : VfsM Unit :=
  forEach (fun (e : Str × Nat) => do
    let suffix := (Str.stripPrefix oldPrefix e.1).getD e.1
    let src ← ofExcept (cfg.objUrl e.1)
    let dst ← ofExcept (cfg.objUrl (newPrefix ++ suffix))
    copy (io.copy e.2) io src dst) keys.zipIdx

def deleteKeys (cfg : VfsConfig) (io : Io) (keys : List Str) : VfsM Unit :=
  forEach (fun (e : Str × Nat) => do
    let url ← ofExcept (cfg.objUrl e.1)
    delete (io.delete e.2) url) keys.zipIdx

/-- The requests of a directory rename: every key under the directory is copied,
then every one is deleted. -/
def moveTree (cfg : VfsConfig) (io : Io) (name oldPrefix newPrefix : Str) : VfsM Unit := do
  if !(← prefixExists cfg io.list oldPrefix) then fail (notFound name)
  else
    let keys ← listedKeys io.listAll
    copyKeys cfg io oldPrefix newPrefix keys
    deleteKeys cfg io keys

/-- What a directory rename does to the inode table. -/
def rekeyTree (io : Io) (oldPrefix newPrefix : Str) : VfsM Unit := do
  let s ← get
  let (ids, inodes) := s.inodes.rekeyPrefix io.order oldPrefix newPrefix
  modify fun s => { s with inodes := inodes }
  forEach invalidateAttr ids

def renameDir (cfg : VfsConfig) (io : Io) (parent newparent : Nat) (name oldPrefix newPrefix : Str) :
    VfsM Unit := do
  moveTree cfg io name oldPrefix newPrefix
  rekeyTree io oldPrefix newPrefix
  invalidateDir parent
  invalidateDir newparent

def rename (cfg : VfsConfig) (io : Io) (parent : Nat) (name : Str) (newparent : Nat)
    (newname : Str) : VfsM Unit := do
  let p ← node parent
  let np ← node newparent
  let oldFile := p.key ++ name
  let newFile := np.key ++ newname
  let url ← ofExcept (cfg.objUrl oldFile)
  match ← attempt (stat io.stat url) with
  | .ok _ => renameFile cfg io parent newparent oldFile newFile
  | .error e =>
    if !e.isNotFound then fail e
    else renameDir cfg io parent newparent name (oldFile ++ ['/']) (newFile ++ ['/'])

end Vfs

/-! ## Operations -/

/-- The operations of the VFS. -/
inductive Op where
  | getattr (ino : Nat)
  | lookup (parent : Nat) (name : Str)
  | readdir (ino : Nat)
  | read (ino fh offset size : Nat)
  | openFile (ino : Nat) (flags : BitVec 32)
  | create (parent : Nat) (name : Str)
  | write (fh offset : Nat) (data : List UInt8)
  | flush (fh : Nat)
  | release (fh : Nat)
  | setattr (ino : Nat) (size fh : Option Nat)
  | unlink (parent : Nat) (name : Str)
  | mkdir (parent : Nat) (name : Str)
  | rmdir (parent : Nat) (name : Str)
  | rename (parent : Nat) (name : Str) (newparent : Nat) (newname : Str)
  deriving DecidableEq, Repr

/-- What an operation returns. -/
inductive Reply where
  | done
  | attr (a : Attr)
  | entries (es : List DirEntry)
  | data (b : List UInt8)
  | opened (fh : Nat)
  | created (ino fh : Nat) (a : Attr)
  | written (n : Nat)
  deriving DecidableEq, Repr

def Op.exec (cfg : VfsConfig) (io : Io) : Op → VfsM Reply
  | .getattr ino => return .attr (← Vfs.getattr cfg io ino)
  | .lookup parent name => return .attr (← Vfs.lookup cfg io parent name)
  | .readdir ino => return .entries (← Vfs.readdir cfg io ino)
  | .read ino fh offset size => return .data (← Vfs.readHandle cfg io ino fh offset size)
  | .openFile ino flags => return .opened (← Vfs.openFile cfg io ino flags)
  | .create parent name => do
    let (ino, fh, a) ← Vfs.create cfg io parent name
    return .created ino fh a
  | .write fh offset data => return .written (← Vfs.writeHandle io fh offset data)
  | .flush fh => do
    Vfs.flushHandle io fh
    return .done
  | .release fh => do
    Vfs.release io fh
    return .done
  | .setattr ino size fh => return .attr (← Vfs.setattr cfg io ino size fh)
  | .unlink parent name => do
    Vfs.unlink cfg io parent name
    return .done
  | .mkdir parent name => return .attr (← Vfs.mkdir cfg io parent name)
  | .rmdir parent name => do
    Vfs.rmdir cfg io parent name
    return .done
  | .rename parent name newparent newname => do
    Vfs.rename cfg io parent name newparent newname
    return .done

end Rs5cmd
