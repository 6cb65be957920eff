import Rs5cmd.Lib.Utf8
import Rs5cmd.Mount.VfsSpec

/-!
# The FUSE adapter (`mount/fs.rs`)

Each request of the kernel becomes calls into the VFS. The adapter is where a
read-only mount refuses to change anything: every request that would is guarded
on its own, and `open` by the access mode of its flags.
-/

namespace Rs5cmd

open Cmd

/-- The error codes that reach the kernel. -/
inductive Errno where
  | enoent
  | enotempty
  | eexist
  | eio
  | erofs
  | einval
  | enosys
  deriving DecidableEq, Repr

def errno : MountError → Errno
  | .storage (.objectNotFound _) => .enoent
  | .storage .noObjectFound => .enoent
  | .dirNotEmpty => .enotempty
  | .alreadyExists => .eexist
  | .storage _ => .eio

/-- `S3Fuse` without its VFS. -/
structure S3Fuse where
  ttl : Nat
  readOnly : Bool
  uid : BitVec 32
  gid : BitVec 32

structure FileAttr where
  ino : Nat
  size : Nat
  blocks : Nat
  atime : Int
  mtime : Int
  ctime : Int
  kind : NodeKind
  perm : Nat
  nlink : Nat
  uid : BitVec 32
  gid : BitVec 32
  rdev : Nat
  blksize : Nat
  deriving DecidableEq, Repr

/-- A name as the kernel sends it. -/
abbrev OsStr := List UInt8

/-- `OsStr::to_str`. -/
def OsStr.toStr (name : OsStr) : Option Str :=
  let s := Utf8.decodeLossy name
  if Utf8.encode s = name then some s else none

/-- The requests, with the arguments the adapter looks at. `other` is any request
that it leaves to the defaults of the trait. -/
inductive FuseRequest where
  | init
  | destroy
  | lookup (parent : Nat) (name : OsStr)
  | getattr (inode : Nat)
  | opendir
  | readdir (parent : Nat) (offset : Int)
  | readdirplus (parent offset : Nat)
  | openFile (inode : Nat) (flags : BitVec 32)
  | read (inode fh offset size : Nat)
  | release (fh : Nat)
  | releasedir
  | flush (fh : Nat)
  | fsync (fh : Nat)
  | create (parent : Nat) (name : OsStr)
  | write (fh offset : Nat) (data : List UInt8)
  | setattr (inode : Nat) (fh size : Option Nat)
  | unlink (parent : Nat) (name : OsStr)
  | mkdir (parent : Nat) (name : OsStr)
  | rmdir (parent : Nat) (name : OsStr)
  | rename (parent : Nat) (name : OsStr) (newParent : Nat) (newName : OsStr)
  | other
  deriving DecidableEq, Repr

structure DirectoryEntry where
  inode : Nat
  kind : NodeKind
  name : Str
  offset : Nat
  deriving DecidableEq, Repr

inductive FuseReply where
  | init (maxWrite : Nat)
  | done
  | entry (ttl : Nat) (attr : FileAttr) (generation : Nat)
  | attr (ttl : Nat) (attr : FileAttr)
  | opened (fh flags : Nat)
  | directory (entries : List DirectoryEntry)
  | directoryPlus (entries : List (DirectoryEntry × FileAttr)) (ttl : Nat)
  | data (b : List UInt8)
  | created (ttl : Nat) (attr : FileAttr) (generation fh flags : Nat)
  | written (n : Nat)
  deriving DecidableEq, Repr

abbrev FuseM (α : Type) := Cmd Vfs Errno α

namespace S3Fuse

/-- A call into the VFS. -/
def call {α : Type} (m : VfsM α) : FuseM α := mapError errno m

/-- `name.to_str().ok_or(EINVAL)`. -/
def utf8Name (name : OsStr) : FuseM Str :=
  match name.toStr with
  | some s => return s
  | none => fail .einval

def toFileAttr (fs : S3Fuse) (a : Attr) : FileAttr :=
  let (perm, nlink) := match a.kind with
    | .dir => (0o755, 2)
    | .file => (0o644, 1)
  { ino := a.ino, size := a.size, blocks := (a.size + 511) / 512
    atime := a.mtime, mtime := a.mtime, ctime := a.mtime, kind := a.kind
    perm := perm, nlink := nlink, uid := fs.uid, gid := fs.gid, rdev := 0, blksize := 512 }

def entryReply (fs : S3Fuse) (a : Attr) : FuseReply := .entry fs.ttl (fs.toFileAttr a) 0

def attrReply (fs : S3Fuse) (a : Attr) : FuseReply := .attr fs.ttl (fs.toFileAttr a)

/-- `dir_entries`: `.`, `..`, then the children. -/
def dirEntries (cfg : VfsConfig) (io : Io) (ino : Nat) : FuseM (List (Nat × Str × NodeKind)) := do
  let children ← call (Vfs.readdir cfg io ino)
  let s ← get
  return (ino, ".".toList, .dir) :: (s.parentOf ino, "..".toList, .dir) ::
    children.map fun c => (c.ino, c.name, c.kind)

/-- The loop of `readdirplus`. The answers of the `i`-th `getattr` are `ios i`. -/
def plusEntries (fs : S3Fuse) (cfg : VfsConfig) (ios : Nat → Io) (offset : Nat) :
    List ((Nat × Str × NodeKind) × Nat) → FuseM (List (DirectoryEntry × FileAttr))
  | [] => return []
  | ((ino, name, _), i) :: rest =>
    if i < offset then plusEntries fs cfg ios offset rest
    else do
      let attr ← call (Vfs.getattr cfg (ios i) ino)
      let out ← plusEntries fs cfg ios offset rest
      return (⟨ino, attr.kind, name, i + 1⟩, fs.toFileAttr attr) :: out

/-- `if self.read_only { return Err(EROFS) }`. -/
def guardWrite {α : Type} (fs : S3Fuse) (m : FuseM α) : FuseM α :=
  if fs.readOnly then fail .erofs else m

/-- The adapter's answer to a request. `ios 0` answers the VFS call of the request,
`ios (i + 1)` the `getattr` of the `i`-th entry of `readdirplus`. -/
def exec (fs : S3Fuse) (cfg : VfsConfig) (ios : Nat → Io) : FuseRequest → FuseM FuseReply
  | .init => return .init (128 * 1024)
  | .destroy => return .done
  | .lookup parent name => do
    let name ← utf8Name name
    return fs.entryReply (← call (Vfs.lookup cfg (ios 0) parent name))
  | .getattr inode => return fs.attrReply (← call (Vfs.getattr cfg (ios 0) inode))
  | .opendir => return .opened 0 0
  | .readdir parent offset => do
    let all ← dirEntries cfg (ios 0) parent
    return .directory (all.zipIdx.filterMap fun ((ino, name, kind), i) =>
      if (i : Int) < offset then none else some ⟨ino, kind, name, i + 1⟩)
  | .readdirplus parent offset => do
    let all ← dirEntries cfg (ios 0) parent
    return .directoryPlus (← fs.plusEntries cfg (fun i => ios (i + 1)) offset all.zipIdx) fs.ttl
  | .openFile inode flags =>
    -- only the access mode is looked at, not `O_TRUNC`
    if fs.readOnly && flags &&& Vfs.oAccmode ≠ 0 then fail .erofs
    else return .opened (← call (Vfs.openFile cfg (ios 0) inode flags)) 0
  | .read inode fh offset size =>
    return .data (← call (Vfs.readHandle cfg (ios 0) inode fh offset size))
  | .release fh => do
    call (Vfs.release (ios 0) fh)
    return .done
  | .releasedir => return .done
  | .flush fh | .fsync fh => do
    call (Vfs.flushHandle (ios 0) fh)
    return .done
  | .create parent name => fs.guardWrite do
    let name ← utf8Name name
    let (_, fh, attr) ← call (Vfs.create cfg (ios 0) parent name)
    return .created fs.ttl (fs.toFileAttr attr) 0 fh 0
  | .write fh offset data => fs.guardWrite do
    return .written (← call (Vfs.writeHandle (ios 0) fh offset data))
  | .setattr inode fh size =>
    if fs.readOnly && size.isSome then fail .erofs
    else return fs.attrReply (← call (Vfs.setattr cfg (ios 0) inode size fh))
  | .unlink parent name => fs.guardWrite do
    let name ← utf8Name name
    call (Vfs.unlink cfg (ios 0) parent name)
    return .done
  | .mkdir parent name => fs.guardWrite do
    let name ← utf8Name name
    return fs.entryReply (← call (Vfs.mkdir cfg (ios 0) parent name))
  | .rmdir parent name => fs.guardWrite do
    let name ← utf8Name name
    call (Vfs.rmdir cfg (ios 0) parent name)
    return .done
  | .rename parent name newParent newName => fs.guardWrite do
    let name ← utf8Name name
    let newName ← utf8Name newName
    call (Vfs.rename cfg (ios 0) parent name newParent newName)
    return .done
  | .other => fail .enosys

end S3Fuse

/-! ## Runs -/

/-- A request with the answers its VFS calls get. -/
structure FuseEvent where
  ios : Nat → Io := fun _ => {}
  request : FuseRequest

namespace S3Fuse

def step (fs : S3Fuse) (cfg : VfsConfig) (s : Vfs) (e : FuseEvent) : Option Vfs :=
  some (fs.exec cfg e.ios e.request s).2

end S3Fuse

end Rs5cmd
