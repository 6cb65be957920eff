import Rs5cmd.Lib.Thread
import Rs5cmd.Mount.Vfs

/-!
# Mutations in steps

The operations that change a directory, cut where another call can come between:
at each request and at each lock. Without others in between they are the operations
of the VFS.
-/

namespace Rs5cmd

open Cmd Thread

abbrev VfsThread (α : Type) := Thread Vfs MountError α

namespace Vfs

/-- A result that does not take a step. -/
def value {α : Type} (r : Except MountError α) : VfsThread α := .done r

/-- `lookup_key` under the lock of the inode table. -/
def inodeOf (key : Str) : VfsM (Option Nat) := fun s => (.ok (s.inodes.lookupKey key), s)

/-! ## Removing and making -/

def dropFileSteps (fileKey : Str) : VfsThread Unit := do
  match ← atom (inodeOf fileKey) with
  | some ino =>
    atom (invalidateAttr ino)
    atom (clearDirtySize ino)
    atom (forget ino)
  | none => pure ()

def unlinkSteps (cfg : VfsConfig) (io : Io) (parent : Nat) (name : Str) : VfsThread Unit := do
  let p ← atom (node parent)
  let url ← value (cfg.objUrl (p.key ++ name))
  atom (delete (io.delete 0) url)
  dropFileSteps (p.key ++ name)
  atom (invalidateDir parent)

def putEmptyObjectSteps (cfg : VfsConfig) (io : Io) (key : Str) : VfsThread Unit := do
  let url ← value (cfg.objUrl key)
  let id ← atom allocFh
  match io.openCache with
  | some e => value (.error (.storage e))
  | none =>
    atom (setCache (.e id) (some []))
    let res ← atom (attempt (upload io (.e id) url))
    atom (setCache (.e id) none)
    value res

def mkdirSteps (cfg : VfsConfig) (io : Io) (parent : Nat) (name : Str) : VfsThread Attr := do
  let p ← atom (node parent)
  let url ← value (cfg.objUrl (p.key ++ name))
  match ← atom (attempt (stat io.stat url)) with
  | .ok _ => value (.error .alreadyExists)
  | .error e =>
    if !e.isNotFound then value (.error e)
    else if ← atom (prefixExists cfg io.list (p.key ++ name ++ ['/'])) then
      value (.error .alreadyExists)
    else
      putEmptyObjectSteps cfg io (p.key ++ name ++ ['/'])
      let ino ← atom (intern (p.key ++ name ++ ['/']) .dir parent)
      atom (invalidateDir parent)
      return cfg.dirAttr ino

def dropDirSteps (dirKey : Str) : VfsThread Unit := do
  match ← atom (inodeOf dirKey) with
  | some ino =>
    atom (invalidateDir ino)
    atom (forget ino)
  | none => pure ()

def rmdirSteps (cfg : VfsConfig) (io : Io) (parent : Nat) (name : Str) : VfsThread Unit := do
  let p ← atom (node parent)
  if !(← atom (dirIsEmpty cfg io.list (p.key ++ name ++ ['/']))) then value (.error .dirNotEmpty)
  else
    let url ← value (cfg.objUrl (p.key ++ name ++ ['/']))
    atom (delete (io.delete 0) url)
    dropDirSteps (p.key ++ name ++ ['/'])
    atom (invalidateDir parent)

/-! ## Creating -/

def createSteps (cfg : VfsConfig) (io : Io) (parent : Nat) (name : Str) :
    VfsThread (Nat × Nat × Attr) := do
  let p ← atom (node parent)
  if !p.kind.isDir then value (.error (notFound name))
  else
    let ino ← atom (intern (p.key ++ name) .file parent)
    let fh ← atom allocFh
    atom (openCacheFile io (.h fh) true)
    let dst ← value (cfg.objUrl (p.key ++ name))
    atom (insertHandle fh ⟨ino, .write ⟨.h fh, dst, 0, true⟩⟩)
    atom (setDirtySize io ino 0)
    atom (storeAttr io ⟨ino, .file, 0, io.now⟩)
    atom (invalidateDir parent)
    return (ino, fh, ⟨ino, .file, 0, io.now⟩)

/-- The handle is taken out of the map. -/
def takeHandle (fh : Nat) : VfsM (Option OpenFile) := fun s =>
  match s.handles[fh]? with
  | none => (.ok none, s)
  | some of => (.ok (some of), { s with handles := s.handles.erase fh })

def parentInode (ino : Nat) : VfsM Nat := fun s => (.ok (s.parentOf ino), s)

def releaseSteps (io : Io) (fh : Nat) : VfsThread Unit := do
  match ← atom (takeHandle fh) with
  | none => pure ()
  | some of =>
    match of.kind with
    | .read _ _ => pure ()
    | .write w =>
      match ← atom (attempt (flushWriter io w)) with
      | .error e => value (.error e)
      | .ok w' =>
        atom (clearDirtySize of.ino)
        atom (storeAttr io ⟨of.ino, .file, w'.size, io.now⟩)
        let parent ← atom (parentInode of.ino)
        atom (invalidateDir parent)
        atom (setCache w'.path none)

/-- A file is created and released. -/
def createReleaseSteps (cfg : VfsConfig) (io io' : Io) (parent : Nat) (name : Str) :
    VfsThread Unit := do
  let (_, fh, _) ← createSteps cfg io parent name
  releaseSteps io' fh

/-! ## Renaming -/

def dropStaleSteps (newFile : Str) : VfsThread Unit := do
  match ← atom (inodeOf newFile) with
  | some d =>
    atom (invalidateAttr d)
    atom (forget d)
  | none => pure ()

def rekeyFileSteps (cfg : VfsConfig) (io : Io) (oldFile newFile : Str) : VfsThread Unit := do
  dropStaleSteps newFile
  match ← atom (inodeOf oldFile) with
  | none => pure ()
  | some ino =>
    atom (modify fun s => { s with inodes := s.inodes.rekey ino newFile })
    atom (invalidateAttr ino)
    atom (repoint cfg io ino newFile)

def renameFileSteps (cfg : VfsConfig) (io : Io) (parent newparent : Nat) (oldFile newFile : Str) :
    VfsThread Unit := do
  let src ← value (cfg.objUrl oldFile)
  let dst ← value (cfg.objUrl newFile)
  atom (copy (io.copy 0) io src dst)
  atom (delete (io.delete 0) src)
  rekeyFileSteps cfg io oldFile newFile
  atom (invalidateDir parent)
  atom (invalidateDir newparent)

def copyKeysSteps (cfg : VfsConfig) (io : Io) (oldPrefix newPrefix : Str) (keys : List Str) :
    VfsThread Unit :=
  Thread.forEach (fun (e : Str × Nat) => do
    let src ← value (cfg.objUrl e.1)
    let dst ← value (cfg.objUrl (newPrefix ++ (Str.stripPrefix oldPrefix e.1).getD e.1))
    atom (copy (io.copy e.2) io src dst)) keys.zipIdx

def deleteKeysSteps (cfg : VfsConfig) (io : Io) (keys : List Str) : VfsThread Unit :=
  Thread.forEach (fun (e : Str × Nat) => do
    let url ← value (cfg.objUrl e.1)
    atom (delete (io.delete e.2) url)) keys.zipIdx

/-- `rekey_prefix` under the lock of the inode table. -/
def rekeyPrefix (io : Io) (oldPrefix newPrefix : Str) : VfsM (List Nat) := fun s =>
  let (ids, inodes) := s.inodes.rekeyPrefix io.order oldPrefix newPrefix
  (.ok ids, { s with inodes := inodes })

def renameDirSteps (cfg : VfsConfig) (io : Io) (parent newparent : Nat)
    (name oldPrefix newPrefix : Str) : VfsThread Unit := do
  if !(← atom (prefixExists cfg io.list oldPrefix)) then value (.error (notFound name))
  else
    let keys ← atom (listedKeys io.listAll)
    copyKeysSteps cfg io oldPrefix newPrefix keys
    deleteKeysSteps cfg io keys
    let ids ← atom (rekeyPrefix io oldPrefix newPrefix)
    Thread.forEach (fun ino => atom (invalidateAttr ino)) ids
    atom (invalidateDir parent)
    atom (invalidateDir newparent)

def renameSteps (cfg : VfsConfig) (io : Io) (parent : Nat) (name : Str) (newparent : Nat)
    (newname : Str) : VfsThread Unit := do
  let p ← atom (node parent)
  let np ← atom (node newparent)
  let url ← value (cfg.objUrl (p.key ++ name))
  match ← atom (attempt (stat io.stat url)) with
  | .ok _ => renameFileSteps cfg io parent newparent (p.key ++ name) (np.key ++ newname)
  | .error e =>
    if !e.isNotFound then value (.error e)
    else renameDirSteps cfg io parent newparent name (p.key ++ name ++ ['/']) (np.key ++ newname ++ ['/'])

/-! ## Alone -/

@[simp] theorem run_value {α : Type} (r : Except MountError α) : (value r).run = ofExcept r := rfl

/-- A thread that looks up an inode and goes on with it. -/
theorem run_inodeOf (key : Str) {α : Type} (f : Option Nat → VfsThread α) (s : Vfs) :
    (atom (inodeOf key) >>= f).run s = (f (s.inodes.lookupKey key)).run s := by
  rw [run_bind]
  rfl

theorem run_unlinkSteps (cfg : VfsConfig) (io : Io) (parent : Nat) (name : Str) :
    (unlinkSteps cfg io parent name).run = unlink cfg io parent name := by
  have hdrop : ∀ key, (dropFileSteps key).run = dropFile key := by
    intro key
    funext s
    simp only [dropFileSteps, dropFile, run_inodeOf, get_bind]
    cases s.inodes.lookupKey key <;> rfl
  simp only [unlinkSteps, unlink, run_bind, run_atom, run_value, hdrop]

theorem run_mkdirSteps (cfg : VfsConfig) (io : Io) (parent : Nat) (name : Str) :
    (mkdirSteps cfg io parent name).run = mkdir cfg io parent name := by
  have hput : ∀ key, (putEmptyObjectSteps cfg io key).run = putEmptyObject cfg io key := by
    intro key
    simp only [putEmptyObjectSteps, putEmptyObject, run_bind, run_atom, run_value]
    refine bind_congr fun url => ?_
    refine bind_congr fun id => ?_
    cases io.openCache with
    | some e => rfl
    | none => simp only [run_bind, run_atom, run_value]
  simp only [mkdirSteps, mkdir, run_bind, run_atom, run_value]
  refine bind_congr fun p => ?_
  refine bind_congr fun url => ?_
  refine bind_congr fun r => ?_
  cases r with
  | ok obj => rfl
  | error e =>
    dsimp only
    split
    · rfl
    · simp only [run_bind, run_atom]
      refine bind_congr fun b => ?_
      cases b with
      | true => rfl
      | false => simp only [Bool.false_eq_true, if_false, run_bind, run_atom, run_pure, hput]

theorem run_rmdirSteps (cfg : VfsConfig) (io : Io) (parent : Nat) (name : Str) :
    (rmdirSteps cfg io parent name).run = rmdir cfg io parent name := by
  simp only [rmdirSteps, rmdir, run_bind, run_atom]
  refine bind_congr fun p => ?_
  refine bind_congr fun b => ?_
  cases b with
  | false => rfl
  | true =>
    simp only [Bool.not_true, Bool.false_eq_true, if_false, run_bind, run_atom, run_value]
    refine bind_congr fun url => ?_
    refine bind_congr fun _ => ?_
    funext s
    have hdrop : (dropDirSteps (p.key ++ name ++ ['/'])).run s =
        (match s.inodes.lookupKey (p.key ++ name ++ ['/']) with
          | some ino => (do
            invalidateDir ino
            forget ino)
          | none => pure () : VfsM Unit) s := by
      simp only [dropDirSteps, run_inodeOf]
      cases s.inodes.lookupKey (p.key ++ name ++ ['/']) <;> rfl
    simp only [get_bind]
    cases hino : s.inodes.lookupKey (p.key ++ name ++ ['/']) with
    | none =>
      rw [hino] at hdrop
      exact bind_ok hdrop
    | some ino =>
      rw [hino] at hdrop
      exact bind_ok hdrop

theorem run_createSteps (cfg : VfsConfig) (io : Io) (parent : Nat) (name : Str) :
    (createSteps cfg io parent name).run = create cfg io parent name := by
  simp only [createSteps, create, run_bind, run_atom]
  refine bind_congr fun p => ?_
  split
  · rfl
  · simp only [run_bind, run_atom, run_value, run_pure]

theorem run_releaseSteps (io : Io) (fh : Nat) : (releaseSteps io fh).run = release io fh := by
  funext s
  simp only [releaseSteps, release, run_bind, run_atom, get_bind]
  cases hh : s.handles[fh]? with
  | none =>
    have htake : takeHandle fh s = (.ok none, s) := by simp only [takeHandle, hh]
    exact bind_ok htake
  | some of =>
    have htake : takeHandle fh s = (.ok (some of), { s with handles := s.handles.erase fh }) := by
      simp only [takeHandle, hh]
    rw [bind_ok htake]
    dsimp only
    rw [modify_bind]
    cases of.kind with
    | read src size => rfl
    | write w =>
      dsimp only
      rw [run_bind, run_atom, attempt_bind, attempt_bind]
      cases (flushWriter io w { s with handles := s.handles.erase fh }).1 with
      | error e => rfl
      | ok w' => rfl

theorem run_renameSteps (cfg : VfsConfig) (io : Io) (parent : Nat) (name : Str) (newparent : Nat)
    (newname : Str) :
    (renameSteps cfg io parent name newparent newname).run =
      rename cfg io parent name newparent newname := by
  have hstale : ∀ key, (dropStaleSteps key).run = dropStale key := by
    intro key
    funext s
    simp only [dropStaleSteps, dropStale, run_inodeOf, get_bind]
    cases s.inodes.lookupKey key <;> rfl
  have hrekey : ∀ oldFile newFile, (rekeyFileSteps cfg io oldFile newFile).run =
      rekeyFile cfg io oldFile newFile := by
    intro oldFile newFile
    simp only [rekeyFileSteps, rekeyFile, run_bind _ (fun _ => _ >>= _), hstale]
    refine bind_congr fun _ => ?_
    funext s
    rw [run_inodeOf, get_bind]
    cases s.inodes.lookupKey oldFile <;> rfl
  have hcopy : ∀ oldPrefix newPrefix keys, (copyKeysSteps cfg io oldPrefix newPrefix keys).run =
      copyKeys cfg io oldPrefix newPrefix keys := by
    intro oldPrefix newPrefix keys
    simp only [copyKeysSteps, copyKeys, run_forEach, run_bind, run_value, run_atom]
  have hdelete : ∀ keys, (deleteKeysSteps cfg io keys).run = deleteKeys cfg io keys := by
    intro keys
    simp only [deleteKeysSteps, deleteKeys, run_forEach, run_bind, run_value, run_atom]
  simp only [renameSteps, rename, run_bind, run_atom, run_value]
  refine bind_congr fun p => ?_
  refine bind_congr fun np => ?_
  refine bind_congr fun url => ?_
  refine bind_congr fun r => ?_
  cases r with
  | ok obj =>
    simp only [renameFileSteps, renameFile, moveFile, run_bind, run_atom, run_value, hrekey, bind_bind]
  | error e =>
    dsimp only
    split
    · rfl
    · simp only [renameDirSteps, renameDir, moveTree, run_bind, run_atom, bind_bind]
      refine bind_congr fun b => ?_
      cases b with
      | false => rfl
      | true =>
        simp only [Bool.not_true, Bool.false_eq_true, if_false, run_bind, run_atom, run_forEach,
          hcopy, hdelete, bind_bind]
        rfl

end Vfs

end Rs5cmd
