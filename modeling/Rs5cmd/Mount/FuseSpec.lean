import Rs5cmd.Mount.Fuse

/-!
# What the requests of the kernel leave alone

The adapter touches the VFS only through its operations, so what every operation
keeps, every request does. For the requests that only look, it is enough to know
which caches an assertion depends on.
-/

namespace Rs5cmd

open Cmd

namespace S3Fuse

variable {I : Vfs → Prop} {fs : S3Fuse} {cfg : VfsConfig}

theorem keeps_utf8Name (name : OsStr) : Keeps I (utf8Name name) := by
  unfold utf8Name
  split
  · exact keeps_pure _
  · exact keeps_fail _

/-- A request that makes one call into the VFS. -/
theorem call_bind {α : Type} {m : VfsM α} {f : α → FuseM FuseReply} (s : Vfs) :
    (call m >>= f) s = match m s with
      | (.ok a, s') => f a s'
      | (.error e, s') => (.error (errno e), s') := by
  cases hms : m s with
  | mk r s' =>
    have hcall : call m s = (r.mapError errno, s') := by
      unfold call mapError
      rw [hms]
    cases r with
    | ok a => exact bind_ok hcall
    | error e => exact bind_error hcall

theorem keeps_dirEntries {io : Io} {ino : Nat} (h : Keeps I (Vfs.readdir cfg io ino)) :
    Keeps I (dirEntries cfg io ino) := by
  refine Keeps.bind (h.mapError errno) ?_
  intro children
  exact keeps_get.bind_pure

theorem keeps_plusEntries {ios : Nat → Io} {offset : Nat}
    (h : ∀ i ino, Keeps I (Vfs.getattr cfg (ios i) ino)) (all : List ((Nat × Str × NodeKind) × Nat)) :
    Keeps I (fs.plusEntries cfg ios offset all) := by
  induction all with
  | nil => exact keeps_pure _
  | cons e rest ih =>
    obtain ⟨⟨ino, name, kind⟩, i⟩ := e
    unfold plusEntries
    split
    · exact ih
    · refine Keeps.bind ((h i ino).mapError errno) ?_
      intro attr
      exact ih.bind_pure

/-- What an operation keeps, the call behind it does. -/
theorem keeps_of_exec {α : Type} {m : VfsM α} {f : α → Reply} (h : Keeps I (m >>= fun a => pure (f a))) :
    Keeps I m := by
  apply keeps_of_snd
  intro s hs
  have hsnd := h.snd hs
  rw [bind_pure_run] at hsnd
  exact hsnd

/-- What every operation of the VFS keeps, every request does. -/
theorem keeps_exec (h : ∀ io (o : Op), Keeps I (o.exec cfg io)) (ios : Nat → Io)
    (req : FuseRequest) : Keeps I (fs.exec cfg ios req) := by
  have hguard : ∀ m : FuseM FuseReply, Keeps I m → Keeps I (fs.guardWrite m) := by
    intro m hm
    unfold guardWrite
    split
    · exact keeps_fail _
    · exact hm
  have hcall : ∀ {α : Type} {m : VfsM α} {f : α → FuseM FuseReply}, Keeps I m →
      (∀ a, Keeps I (f a)) → Keeps I (call m >>= f) :=
    fun hm hf => Keeps.bind (hm.mapError errno) hf
  have hreaddir : ∀ ino, Keeps I (Vfs.readdir cfg (ios 0) ino) :=
    fun ino => keeps_of_exec (h _ (.readdir ino))
  cases req with
  | init | destroy | opendir | releasedir => exact keeps_pure _
  | lookup parent name =>
    refine Keeps.bind (keeps_utf8Name name) fun name => ?_
    exact hcall (keeps_of_exec (h _ (.lookup parent name))) fun _ => keeps_pure _
  | getattr inode => exact hcall (keeps_of_exec (h _ (.getattr inode))) fun _ => keeps_pure _
  | readdir parent offset =>
    exact (keeps_dirEntries (hreaddir parent)).bind_pure
  | readdirplus parent offset =>
    refine Keeps.bind (keeps_dirEntries (hreaddir parent)) fun all => ?_
    refine (keeps_plusEntries ?_ _).bind_pure
    exact fun i ino => keeps_of_exec (h _ (.getattr ino))
  | openFile inode flags =>
    simp only [exec]
    split
    · exact keeps_fail _
    · exact hcall (keeps_of_exec (h _ (.openFile inode flags))) fun _ => keeps_pure _
  | read inode fh offset size =>
    exact hcall (keeps_of_exec (h _ (.read inode fh offset size))) fun _ => keeps_pure _
  | release fh => exact hcall (keeps_of_exec (h _ (.release fh))) fun _ => keeps_pure _
  | flush fh | fsync fh => exact hcall (keeps_of_exec (h _ (.flush fh))) fun _ => keeps_pure _
  | create parent name =>
    refine hguard _ (Keeps.bind (keeps_utf8Name name) fun name => ?_)
    exact hcall (keeps_of_exec (h _ (.create parent name))) fun _ => keeps_pure _
  | write fh offset data =>
    refine hguard _ ?_
    exact hcall (keeps_of_exec (h _ (.write fh offset data))) fun _ => keeps_pure _
  | setattr inode fh size =>
    simp only [exec]
    split
    · exact keeps_fail _
    · exact hcall (keeps_of_exec (h _ (.setattr inode size fh))) fun _ => keeps_pure _
  | unlink parent name =>
    refine hguard _ (Keeps.bind (keeps_utf8Name name) fun name => ?_)
    exact hcall (keeps_of_exec (h _ (.unlink parent name))) fun _ => keeps_pure _
  | mkdir parent name =>
    refine hguard _ (Keeps.bind (keeps_utf8Name name) fun name => ?_)
    exact hcall (keeps_of_exec (h _ (.mkdir parent name))) fun _ => keeps_pure _
  | rmdir parent name =>
    refine hguard _ (Keeps.bind (keeps_utf8Name name) fun name => ?_)
    exact hcall (keeps_of_exec (h _ (.rmdir parent name))) fun _ => keeps_pure _
  | rename parent name newParent newName =>
    refine hguard _ (Keeps.bind (keeps_utf8Name name) fun name => ?_)
    refine Keeps.bind (keeps_utf8Name newName) fun newName => ?_
    exact hcall (keeps_of_exec (h _ (.rename parent name newParent newName))) fun _ => keeps_pure _
  | other => exact keeps_fail _

end S3Fuse

end Rs5cmd
