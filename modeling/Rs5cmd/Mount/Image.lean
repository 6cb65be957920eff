import Rs5cmd.Lib.Machine
import Rs5cmd.Mount.Vfs

/-!
# A mount, and the files its users see (`mount/mod.rs`)

The mount as a machine: operations while it runs, and then the end of
`mount::run`, which drops the open handles and removes the cache directory.

Beside the state of the program stands the abstract model of its write handles:
what the user of each one sees in the file, and whether the bucket has ever held
exactly that. The model is driven by the operations, their outcomes and the
bucket, never by the cache files.
-/

namespace Rs5cmd

/-- A file opened for writing, as the user of the handle sees it. -/
structure Image where
  bytes : List UInt8
  /-- No upload of these bytes has succeeded. -/
  unsaved : Bool
  deriving DecidableEq, Repr

abbrev Images := Nat → Option Image

namespace Image

/-- A file just opened: the object, or an empty file where it is truncated or
not found. -/
def opened (io : Io) (trunc : Bool) (object : Option Stored) : Image :=
  if trunc then ⟨[], true⟩
  else
    match io.stat, io.download, object with
    | none, none, some o => ⟨o.bytes, false⟩
    | _, _, _ => ⟨[], true⟩

/-- A write; one that fails gets some of its bytes through. -/
def write (io : Io) (offset : Nat) (data : List UInt8) (m : Image) : Image :=
  ⟨Bytes.writeAt offset (io.write.written data) m.bytes, m.unsaved || io.write.isNone⟩

def truncate (newSize : Nat) (m : Image) : Image := ⟨Bytes.setLen newSize m.bytes, true⟩

/-- The file is saved once the bucket holds its bytes. -/
def save (object : Option Stored) (m : Image) : Image :=
  { m with unsaved := m.unsaved && decide (object.map Stored.bytes ≠ some m.bytes) }

end Image

/-- The writer of a handle that is open for writing. -/
def Vfs.writer (s : Vfs) (fh : Nat) : Option Writer :=
  match s.handles[fh]? with
  | some ⟨_, .write w⟩ => some w
  | _ => none

/-- The object that an inode stands for. -/
def Vfs.objectOf (s : Vfs) (ino : Nat) : Option Stored :=
  (s.inodes.get ino).bind fun n => s.bucket n.key

/-- The images after an operation that took `s` to `s'` and returned `r`. A
handle that is closed while unsaved keeps its image. -/
def Images.step (g : Images) (io : Io) (s : Vfs) (o : Op) (r : Except MountError Reply) (s' : Vfs) :
    Images :=
  match o, r with
  | .openFile ino flags, .ok (.opened fh) =>
    if Vfs.opensForWriting flags then
      Function.update g fh (some (.opened io (flags &&& Vfs.oTrunc ≠ 0) (s.objectOf ino)))
    else g
  | .create _ _, .ok (.created _ fh _) => Function.update g fh (some ⟨[], true⟩)
  | .write fh offset data, _ =>
    match s.writer fh with
    | some _ => Function.update g fh ((g fh).map (Image.write io offset data))
    | none => g
  | .setattr ino (some newSize) fh, _ =>
    match s.findWriteHandle io ino fh, io.setLen with
    | some (h, _), none => Function.update g h ((g h).map (Image.truncate newSize))
    | _, _ => g
  | .flush fh, .ok _ =>
    match s.writer fh with
    | some w => Function.update g fh ((g fh).map (Image.save (s'.bucket w.dst.path)))
    | none => g
  | .release fh, .ok _ =>
    match s.writer fh with
    | some w =>
      Function.update g fh
        (((g fh).map (Image.save (s'.bucket w.dst.path))).filter fun m => m.unsaved)
    | none => g
  | _, _ => g

/-! ## The machine -/

/-- A mount of the bucket `data` that caches nothing. -/
def VfsConfig.sample : VfsConfig where
  bucket := "data".toList
  attrTtl := 0
  dirTtl := 0
  startTime := 0
  bucket_ne := by decide
  bucket_slash := by decide
  bucket_glob := by decide

/-- A mount. The images are not part of the program. -/
structure Mounted where
  vfs : Vfs
  running : Bool
  images : Images

/-- A mount that has just started. -/
def Mounted.new (rootKey : Str) (bucket : Str → Option Stored) : Mounted where
  vfs := .new rootKey bucket
  running := true
  images := fun _ => none

/-- An operation of the mount, or its end. The removal of the cache directory
ignores errors, so `removed` says which files it got to. -/
inductive MountEvent where
  | op (io : Io) (o : Op)
  | unmount (removed : CacheFile → Bool)

/-- `Drop` of the writers: a clean one removes its cache file. -/
def Vfs.droppedFile (s : Vfs) (p : CacheFile) : Bool :=
  s.handles.toList.any fun e =>
    match e.2.kind with
    | .write w => w.path = p && !w.dirty
    | .read _ _ => false

/-- The end of `mount::run`. -/
def Vfs.unmounted (s : Vfs) (removed : CacheFile → Bool) : Vfs :=
  { s with
    handles := ∅
    cache := fun p => if s.droppedFile p || removed p then none else s.cache p }

namespace Mounted

/-- The mount after an operation. -/
def exec (cfg : VfsConfig) (m : Mounted) (io : Io) (o : Op) : Mounted :=
  let (r, s') := o.exec cfg io m.vfs
  { m with vfs := s', images := m.images.step io m.vfs o r s' }

def step (cfg : VfsConfig) (m : Mounted) : MountEvent → Option Mounted
  | .op io o => if m.running then some (m.exec cfg io o) else none
  | .unmount removed =>
    if m.running then some { m with vfs := m.vfs.unmounted removed, running := false } else none

/-- The mount after a schedule of events. -/
abbrev run (cfg : VfsConfig) : Mounted → List MountEvent → Option Mounted :=
  Machine.run (step cfg)

variable {cfg : VfsConfig} {io : Io} {m m' : Mounted}

theorem step_op_of_running (h : m.running = true) (o : Op) :
    step cfg m (.op io o) = some (m.exec cfg io o) := by
  simp only [step, h, if_true]

theorem step_op {o : Op} (h : step cfg m (.op io o) = some m') :
    m.running = true ∧ m' = m.exec cfg io o := by
  simp only [step] at h
  split at h
  · rename_i hrun
    exact ⟨hrun, (Option.some.inj h).symm⟩
  · cases h

theorem step_unmount {removed : CacheFile → Bool} (h : step cfg m (.unmount removed) = some m') :
    m.running = true ∧ m' = { m with vfs := m.vfs.unmounted removed, running := false } := by
  simp only [step] at h
  split at h
  · rename_i hrun
    exact ⟨hrun, (Option.some.inj h).symm⟩
  · cases h

end Mounted

end Rs5cmd
