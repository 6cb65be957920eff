import Rs5cmd.Lib.PosixFile
import Rs5cmd.Mount.HandleSpec

/-!
# One write-back writer (`mount/writer.rs`)

The calls on the writer of an open handle, from the cache file that `open` has
populated to the drop. Beside the program's state stands what the last successful
upload carried, or the initial download before any.
-/

namespace Rs5cmd

open Cmd

variable {cfg : VfsConfig} {io : Io}

namespace Vfs

/-- `Writer::truncate`. -/
def truncateWriter (io : Io) (fh ino : Nat) (w : Writer) (newSize : Nat) : VfsM Writer := do
  match io.setLen with
  | some e => fail (.storage e)
  | none =>
    let s ← get
    setCache w.path (some (Bytes.setLen newSize ((s.cache w.path).getD [])))
    let w' := { w with size := newSize, dirty := true }
    setWriter fh ino w'
    return w'

/-- `Drop` of a writer: the file of a dirty one is kept. -/
def dropWriter (w : Writer) : VfsM Unit := do
  if w.dirty then pure ()
  else setCache w.path none

/-- `setattr` of the size of a file that is open for writing truncates its writer. -/
theorem setattr_truncates {s : Vfs} {ino fh newSize : Nat} {given : Option Nat} {w : Writer}
    (hfind : s.findWriteHandle io ino given = some (fh, w)) :
    setattr cfg io ino (some newSize) given s = (do
      let w' ← truncateWriter io fh ino w newSize
      setDirtySize io ino w'.size
      storeAttr io ⟨ino, .file, w'.size, io.now⟩
      getattr cfg io ino : VfsM Attr) s := by
  simp only [setattr, truncateWriter, get_bind, hfind]
  cases io.setLen with
  | some e => rfl
  | none => rfl

/-- `release` flushes the writer and drops it: clean after a flush that succeeded, as
it was after one that failed. -/
theorem release_drops {s : Vfs} {fh ino : Nat} {w : Writer}
    (hh : s.handles[fh]? = some ⟨ino, .write w⟩) :
    release io fh s = (do
      match ← attempt (flushWriter io w) with
      | .error e =>
        dropWriter w
        fail e
      | .ok w' =>
        clearDirtySize ino
        storeAttr io ⟨ino, .file, w'.size, io.now⟩
        let s ← get
        invalidateDir (s.parentOf ino)
        dropWriter w' : VfsM Unit) (s.close fh) := by
  have hclose : s.close fh = { s with handles := s.handles.erase fh } := rfl
  simp only [release, get_bind, hh, modify_bind, attempt_bind, hclose]
  rcases flushWriter_cases io w { s with handles := s.handles.erase fh } with
    ⟨hclean, hrun⟩ | ⟨hdirty, b, hb, hrun⟩ | ⟨hdirty, e, t, hrun, ht⟩
  · simp only [hrun, dropWriter, hclean, Bool.false_eq_true, if_false]
  · simp only [hrun, dropWriter, Bool.false_eq_true, if_false]
  · simp only [hrun, dropWriter, hdirty, if_true]
    rfl

end Vfs

/-! ## Calls -/

/-- A call on a writer. -/
inductive WriterOp where
  | write (offset : Nat) (data : List UInt8)
  | truncate (newSize : Nat)
  | read (offset size : Nat)
  | flush

structure WriterCall where
  io : Io
  op : WriterOp

/-- A writer between two calls. `carried` is not part of the program. -/
structure WriterRun where
  vfs : Vfs
  writer : Writer
  /-- The object that the last successful upload put, or the download took. -/
  carried : Option (List UInt8)

namespace WriterRun

/-- The writer after a call; one that failed leaves it as it was. -/
def writerAfter (w : Writer) : Except MountError Writer → Writer
  | .ok w' => w'
  | .error _ => w

/-- The run after a call on the writer of handle `fh` of inode `ino`. -/
def after (fh ino : Nat) (s : WriterRun) (c : WriterCall) : WriterRun :=
  match c.op with
  | .write offset data =>
    let (r, vfs) := Vfs.writeWriter c.io fh ino s.writer offset data s.vfs
    { s with vfs := vfs, writer := writerAfter s.writer r }
  | .truncate newSize =>
    let (r, vfs) := Vfs.truncateWriter c.io fh ino s.writer newSize s.vfs
    { s with vfs := vfs, writer := writerAfter s.writer r }
  | .read offset size => { s with vfs := (Vfs.readWriter c.io s.writer offset size s.vfs).2 }
  | .flush =>
    let (r, vfs) := Vfs.flushWriter c.io s.writer s.vfs
    { vfs := vfs
      writer := writerAfter s.writer r
      carried :=
        match r with
        | .ok _ =>
          if s.writer.dirty then (vfs.bucket s.writer.dst.path).map Stored.bytes else s.carried
        | .error _ => s.carried }

def run (fh ino : Nat) (s : WriterRun) (calls : List WriterCall) : WriterRun :=
  calls.foldl (after fh ino) s

end WriterRun

end Rs5cmd
