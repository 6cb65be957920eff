import Rs5cmd.Mount.Held
import Rs5cmd.Theorems.WriteBack

/-!
# An open write handle is a POSIX file of its own

From the open on, a write handle is a private file: what is read through it is what
POSIX prescribes for the object that was opened and the writes and truncations that
reached this handle since, whatever else the mount does in between (other handles on
the same file, renames, unlinks, failing uploads). The bucket sees the file when the
handle is flushed or released.
-/

namespace Rs5cmd

open Cmd

/-! ## The file behind a handle -/

/-- A file open for writing, as its user sees it. -/
structure Session where
  file : PosixFile UInt8
  /-- It was created, emptied or changed since the last flush. -/
  unsaved : Bool

/-- What an operation does to the file open as `fh`. A truncation by inode finds one of
the handles on it. -/
def Session.after (fh : Nat) (s : Vfs) (io : Io) (o : Op) (r : Except MountError Reply) (v : Session) :
    Session :=
  match o, r with
  | .write k offset data, _ => if k = fh then ⟨v.file.write offset data, true⟩ else v
  | .setattr ino (some newSize) given, _ =>
    match s.findWriteHandle io ino given, io.setLen with
    | some (k, _), none => if k = fh then ⟨v.file.truncate newSize, true⟩ else v
    | _, _ => v
  | .flush k, .ok _ => if k = fh then { v with unsaved := false } else v
  | _, _ => v

/-- The file after a schedule of the mount. -/
def Session.run (cfg : VfsConfig) (fh : Nat) : Mounted → List MountEvent → Session → Session
  | _, [], v => v
  | m, .op io o :: es, v =>
    Session.run cfg fh (m.exec cfg io o) es (v.after fh m.vfs io o (o.exec cfg io m.vfs).1)
  | m, .unmount _ :: es, v => Session.run cfg fh m es v

/-- What is written through the handle gets into its cache file, and the handle is not
released. No local file is longer than `i64::MAX`. -/
def MountEvent.KeepsOpen (fh : Nat) : MountEvent → Prop
  | .op io (.write k offset data) =>
    k = fh → io.write = none ∧ data ≠ [] ∧ offset + data.length < 2 ^ 63
  | .op _ (.release k) => k ≠ fh
  | _ => True

/-- The handle is open for writing, and holds the file. -/
structure Sees (fh : Nat) (v : Session) (s : Vfs) : Prop where
  writer : ∃ ino w, s.handles[fh]? = some ⟨ino, .write w⟩ ∧ w.path = .h fh ∧
    w.size = v.file.length ∧ w.dirty = v.unsaved
  cache : s.cache (.h fh) = some v.file.toList
  known : fh ≤ s.nextFh

variable {cfg : VfsConfig} {io : Io} {g : Images} {s s' : Vfs} {fh : Nat} {v : Session}

/-! ## Changes that leave the file -/

theorem sees_cacheFree : CacheFree (Sees fh v) where
  attrCache _ _ h := ⟨h.writer, h.cache, h.known⟩
  dirCache _ _ h := ⟨h.writer, h.cache, h.known⟩
  dirtySizes _ _ h := ⟨h.writer, h.cache, h.known⟩

theorem sees_bucketFree : BucketFree (Sees fh v) := fun _ _ h => ⟨h.writer, h.cache, h.known⟩

theorem sees_inodeFree : InodeFree (Sees fh v) := fun _ _ h => ⟨h.writer, h.cache, h.known⟩

theorem sees_tempFree : TempFree (Sees fh v) where
  nextFh _ h := ⟨h.writer, h.cache, Nat.le_succ_of_le h.known⟩
  temp t _ b hp h := ⟨h.writer, (Function.update_of_ne (hp fh).symm b t.cache).trans h.cache, h.known⟩

/-- A writer that is changed in where it uploads to only. -/
theorem sees_dstFree : DstFree (Sees fh v) := by
  intro t k ino w url hk h
  refine ⟨?_, h.cache, h.known⟩
  by_cases hkf : k = fh
  · subst hkf
    obtain ⟨ino', w', hw', hpath, hsize, hdirty⟩ := h.writer
    obtain ⟨rfl, rfl⟩ : ino = ino' ∧ w = w' := by simpa using hk.symm.trans hw'
    exact ⟨ino, { w with dst := url }, t.handles_withHandle_self k _, hpath, hsize, hdirty⟩
  · obtain ⟨ino', w', hw', hrest⟩ := h.writer
    exact ⟨ino', w', (t.handles_withHandle_of_ne (Ne.symm hkf) _).trans hw', hrest⟩

/-- A step that leaves the handle and its cache file alone. -/
theorem Sees.same (h : Sees fh v s) (hhandle : s'.handles[fh]? = s.handles[fh]?)
    (hcache : s'.cache (.h fh) = s.cache (.h fh)) (hnext : s.nextFh ≤ s'.nextFh) : Sees fh v s' := by
  refine ⟨?_, hcache.trans h.cache, h.known.trans hnext⟩
  rw [hhandle]
  exact h.writer

theorem Sees.maybePut {t : Vfs} {file : CacheFile} {dst : Url} (h : Sees fh v s)
    (ht : MaybePut io file dst s t) : Sees fh v t := by
  rcases ht with rfl | ⟨b, -, rfl⟩
  · exact h
  · exact sees_bucketFree _ _ h

/-! ## Other handles -/

/-- The cache file of another handle is not this one's. -/
theorem Held.path_ne (hg : Held g s) {k ino : Nat} {w : Writer}
    (hk : s.handles[k]? = some ⟨ino, .write w⟩) (hne : k ≠ fh) : CacheFile.h fh ≠ w.path := by
  rw [(hg.writer k ino w hk).1]
  exact fun heq => hne (CacheFile.h.inj heq).symm

theorem Sees.otherFile (h : Sees fh v s) {p : CacheFile} (hp : CacheFile.h fh ≠ p)
    (b : Option (List UInt8)) : Sees fh v (s.withFile p b) :=
  h.same rfl (s.cache_withFile_of_ne hp b) le_rfl

theorem Sees.otherHandle (h : Sees fh v s) {k : Nat} (hne : k ≠ fh) (of : OpenFile) :
    Sees fh v (s.withHandle k of) :=
  h.same (s.handles_withHandle_of_ne hne.symm of) rfl le_rfl

theorem Sees.otherClose (h : Sees fh v s) {k : Nat} (hne : k ≠ fh) : Sees fh v (s.close k) :=
  h.same (s.handles_close_of_ne hne.symm) rfl le_rfl

theorem Sees.writeOther (h : Sees fh v s) (hg : Held g s) {k : Nat} (hne : k ≠ fh) (offset : Nat)
    (data : List UInt8) : Sees fh v (Vfs.writeHandle io k offset data s).2 := by
  rcases writer_eq_none_or s k with hno | ⟨ino, w, hk⟩
  · obtain ⟨e, he⟩ := writeHandle_noWriter io hno offset data
    rw [he]
    exact h
  · have hp := hg.path_ne hk hne
    cases hio : io.write with
    | none =>
      obtain ⟨t, ht, hup, -⟩ := writeHandle_ok hk hio offset data
      rw [ht]
      exact sees_cacheFree.apply ((h.otherFile hp _).otherHandle hne _) hup
    | some fault =>
      obtain ⟨e, he⟩ := writeHandle_error hk hio offset data
      rw [he]
      exact h.otherFile hp _

theorem Sees.flushOther (h : Sees fh v s) {k : Nat} (hne : k ≠ fh) :
    Sees fh v (Vfs.flushHandle io k s).2 := by
  rcases writer_eq_none_or s k with hno | ⟨ino, w, hk⟩
  · rw [flushHandle_noWriter io hno]
    exact h
  · rcases flushWriter_cases io w s with ⟨-, hrun⟩ | ⟨-, b, -, hrun⟩ | ⟨-, e, t, hrun, ht⟩
    · rw [flushHandle_ok hk hrun]
      exact h.otherHandle hne _
    · rw [flushHandle_ok hk hrun]
      have hput : Sees fh v (s.put io w.dst.path b) := sees_bucketFree _ _ h
      exact hput.otherHandle hne _
    · rw [flushHandle_error hk hrun]
      exact h.maybePut ht

theorem Sees.releaseOther (h : Sees fh v s) (hg : Held g s) (io : Io) {k : Nat} (hne : k ≠ fh) :
    Sees fh v (Vfs.release io k s).2 := by
  have hclosed := h.otherClose hne
  rcases writer_eq_none_or s k with hno | ⟨ino, w, hk⟩
  · rcases release_noWriter io hno with hrun | hrun
    · rw [hrun]
      exact h
    · rw [hrun]
      exact hclosed
  · have hp := hg.path_ne hk hne
    rcases flushWriter_cases io w (s.close k) with ⟨-, hrun⟩ | ⟨-, b, -, hrun⟩ | ⟨-, e, t, hrun, ht⟩
    · obtain ⟨t, ht, hup, -⟩ := release_ok hk hrun
      rw [ht]
      exact sees_cacheFree.apply (hclosed.otherFile hp none) hup
    · obtain ⟨t, ht, hup, -⟩ := release_ok hk hrun
      rw [ht]
      have hput : Sees fh v ((s.close k).put io w.dst.path b) := sees_bucketFree _ _ hclosed
      exact sees_cacheFree.apply (hput.otherFile hp none) hup
    · rw [release_error hk hrun]
      exact hclosed.maybePut ht

/-! ## The handle itself -/

theorem Sees.fileOf (h : Sees fh v s) {ino : Nat} {w : Writer}
    (hh : s.handles[fh]? = some ⟨ino, .write w⟩) :
    w.path = .h fh ∧ w.size = v.file.length ∧ w.dirty = v.unsaved ∧ s.fileOf w = v.file.toList := by
  obtain ⟨ino', w', hw', hpath, hsize, hdirty⟩ := h.writer
  obtain ⟨-, rfl⟩ : ino = ino' ∧ w = w' := by simpa using hh.symm.trans hw'
  refine ⟨hpath, hsize, hdirty, ?_⟩
  rw [Vfs.fileOf, hpath, h.cache, Option.getD_some]

/-- The handle with a new writer over a new file. -/
theorem Sees.rewrite (h : Sees fh v s) {ino : Nat} {w : Writer} (v' : Session)
    (hpath : w.path = .h fh) (hsize : w.size = v'.file.length) (hdirty : w.dirty = v'.unsaved) :
    Sees fh v' ((s.withFile (.h fh) (some v'.file.toList)).withHandle fh ⟨ino, .write w⟩) :=
  ⟨⟨ino, w, Vfs.handles_withHandle_self _ fh _, hpath, hsize, hdirty⟩,
    s.cache_withFile_self (.h fh) _, h.known⟩

theorem Sees.writeSelf (h : Sees fh v s) (hio : io.write = none) {offset : Nat} {data : List UInt8}
    (hdata : data ≠ []) (hfits : offset + data.length < 2 ^ 63) :
    Sees fh ⟨v.file.write offset data, true⟩ (Vfs.writeHandle io fh offset data s).2 := by
  obtain ⟨ino, w, hh, -⟩ := h.writer
  obtain ⟨hpath, hsize, -, hfile⟩ := h.fileOf hh
  obtain ⟨t, ht, hup, -⟩ := writeHandle_ok hh hio offset data
  rw [ht]
  refine sees_cacheFree.apply ?_ hup
  rw [hfile, ← PosixFile.toList_write, hpath]
  refine h.rewrite ⟨v.file.write offset data, true⟩ hpath ?_ rfl
  show max w.size (min (offset + data.length) (2 ^ 64 - 1)) =
    if data = [] then v.file.length else max v.file.length (offset + data.length)
  rw [hsize, if_neg hdata, Nat.min_eq_left (by omega)]

theorem Sees.setattr (h : Sees fh v s) (hg : Held g s) (ino : Nat) (size given : Option Nat)
    (r : Except MountError Reply) :
    Sees fh (v.after fh s io (.setattr ino size given) r) (Vfs.setattr cfg io ino size given s).2 := by
  cases size with
  | none =>
    exact setattr_noHandle sees_cacheFree.attrCache sees_tempFree sees_bucketFree h (Or.inl rfl)
  | some newSize =>
    cases hfind : s.findWriteHandle io ino given with
    | none =>
      simp only [Session.after, hfind]
      exact setattr_noHandle sees_cacheFree.attrCache sees_tempFree sees_bucketFree h (Or.inr hfind)
    | some found =>
      obtain ⟨k, w⟩ := found
      have hk := findWriteHandle_some hfind
      cases hio : io.setLen with
      | some e =>
        rw [setattr_error hfind hio]
        simp only [Session.after, hfind, hio]
        exact h
      | none =>
        simp only [Session.after, hfind, hio]
        refine sees_cacheFree.apply ?_ (setattr_ok hfind hio newSize).1
        by_cases hkf : k = fh
        · subst hkf
          obtain ⟨hpath, -, -, hfile⟩ := h.fileOf hk
          rw [if_pos rfl, hfile, ← PosixFile.toList_truncate, hpath]
          exact h.rewrite ⟨v.file.truncate newSize, true⟩ hpath rfl rfl
        · rw [if_neg hkf]
          exact (h.otherFile (hg.path_ne hk hkf) _).otherHandle hkf _

/-- A flush that succeeds has the bucket hold the file, if it was not saved. -/
theorem Sees.flushWriter_cases (h : Sees fh v s) (io : Io) {ino : Nat} {w : Writer}
    (hh : s.handles[fh]? = some ⟨ino, .write w⟩) {t : Vfs} (hbucket : t.bucket = s.bucket)
    (hcache : t.cache = s.cache) :
    (∃ u, Vfs.flushWriter io w t = (.ok { w with dirty := false }, u) ∧
        u.cache = s.cache ∧ u.handles = t.handles ∧ u.nextFh = t.nextFh ∧
        u.bucket = if v.unsaved then (s.put io w.dst.path v.file.toList).bucket else s.bucket) ∨
      ∃ e u, Vfs.flushWriter io w t = (.error e, u) ∧ MaybePut io w.path w.dst t u := by
  obtain ⟨hpath, -, hdirty, hfile⟩ := h.fileOf hh
  rcases Rs5cmd.flushWriter_cases io w t with ⟨hclean, hrun⟩ | ⟨hsaving, b, hb, hrun⟩ | ⟨-, e, u, hrun, hu⟩
  · have hsame : { w with dirty := false } = w := by rw [← hclean]
    refine Or.inl ⟨t, ?_, hcache, rfl, rfl, ?_⟩
    · rw [hsame, hrun]
    · rw [hbucket, ← hdirty, hclean, if_neg Bool.false_ne_true]
  · have hb' : b = v.file.toList := by
      rw [hcache, hpath, h.cache] at hb
      exact (Option.some.inj hb).symm
    refine Or.inl ⟨_, hrun, hcache, rfl, rfl, ?_⟩
    rw [← hdirty, hsaving, if_pos rfl, hb']
    show Function.update t.bucket _ _ = Function.update s.bucket _ _
    rw [hbucket]
  · exact Or.inr ⟨e, u, hrun, hu⟩

theorem Sees.flushSelf (h : Sees fh v s) :
    Sees fh (v.after fh s io (.flush fh) ((Op.flush fh).exec cfg io s).1)
      ((Op.flush fh).exec cfg io s).2 := by
  obtain ⟨ino, w, hh, hpath, hsize, hdirty⟩ := h.writer
  simp only [Op.exec, bind_pure_run]
  rcases h.flushWriter_cases io hh rfl rfl with ⟨u, hrun, hcache, hhandles, hnext, -⟩ | ⟨e, u, hrun, hu⟩
  · rw [flushHandle_ok hh hrun]
    simp only [Session.after, Except.map, if_true]
    refine ⟨⟨ino, _, Vfs.handles_withHandle_self u fh _, hpath, hsize, rfl⟩, ?_, ?_⟩
    · show u.cache (.h fh) = _
      rw [hcache]
      exact h.cache
    · show fh ≤ u.nextFh
      rw [hnext]
      exact h.known
  · rw [flushHandle_error hh hrun]
    exact h.maybePut hu

/-! ## Opening -/

/-- A handle that is opened later. -/
theorem Sees.openOther (h : Sees fh v s) (ino : Nat) (flags : BitVec 32) :
    Sees fh v (Vfs.openFile cfg io ino flags s).2 := by
  have hne : s.nextHandle ≠ fh := Nat.ne_of_gt (Nat.lt_succ_of_le h.known)
  have hfile : CacheFile.h fh ≠ .h s.nextHandle := fun heq => hne (CacheFile.h.inj heq).symm
  have hnumbered : ∀ k, s.nextFh ≤ k → Sees fh v { s with nextFh := k } := fun k hk =>
    h.same rfl rfl hk
  have hspec := openFile_spec cfg io ino flags s
  generalize Vfs.openFile cfg io ino flags s = r at hspec
  cases hspec with
  | read src size hflags hs =>
    exact sees_cacheFree.apply ((hnumbered _ (Nat.le_succ _)).otherHandle hne _) hs
  | write size hflags hn hm hs =>
    refine sees_cacheFree.apply ?_ hs
    exact ((hnumbered _ (Nat.le_succ _)).otherFile hfile _).otherHandle hne _
  | error e k c hk hs =>
    exact sees_cacheFree.apply ((hnumbered k hk).otherFile hfile c) hs

theorem Sees.createOther (h : Sees fh v s) (parent : Nat) (name : Str) :
    Sees fh v (Vfs.create cfg io parent name s).2 := by
  have hne : s.nextHandle ≠ fh := Nat.ne_of_gt (Nat.lt_succ_of_le h.known)
  have hfile : CacheFile.h fh ≠ .h s.nextHandle := fun heq => hne (CacheFile.h.inj heq).symm
  have hspec := create_spec cfg io parent name s
  generalize Vfs.create cfg io parent name s = r at hspec
  cases hspec with
  | @ok _ p ino t a hp hdir hin hs =>
    have hnumbered : Sees fh v { s with inodes := t, nextFh := s.nextHandle } :=
      h.same rfl rfl (Nat.le_succ _)
    exact sees_cacheFree.apply ((hnumbered.otherFile hfile _).otherHandle hne _) hs
  | error e => exact h
  | noFile e hp hdir hin => exact h.same rfl rfl (Nat.le_succ _)

/-- **One operation.** -/
theorem exec_sees (h : Sees fh v s) (hg : Held g s) {o : Op} (ho : (MountEvent.op io o).KeepsOpen fh) :
    Sees fh (v.after fh s io o (o.exec cfg io s).1) (o.exec cfg io s).2 := by
  have hc := @sees_cacheFree fh v
  have hb := @sees_bucketFree fh v
  have hi := @sees_inodeFree fh v
  have ht := @sees_tempFree fh v
  cases o with
  | getattr ino => exact (keeps_getattr hc.attrCache ino).bind_pure.snd h
  | lookup parent name =>
    refine (Keeps.bind_pure ?_).snd h
    exact keeps_lookup hc.attrCache hi.internStable parent name
  | readdir ino =>
    exact (keeps_readdir hc.stable hi.internStable ino).bind_pure.snd h
  | read ino k offset size =>
    exact (keeps_readHandle hc.attrCache ino k offset size).bind_pure.snd h
  | openFile ino flags =>
    simp only [Op.exec, bind_pure_run]
    exact h.openOther ino flags
  | create parent name =>
    rw [exec_create]
    exact h.createOther parent name
  | write k offset data =>
    simp only [Op.exec, bind_pure_run, Session.after]
    by_cases hk : k = fh
    · subst hk
      obtain ⟨hio, hdata, hfits⟩ := ho rfl
      rw [if_pos rfl]
      exact h.writeSelf hio hdata hfits
    · rw [if_neg hk]
      exact h.writeOther hg hk offset data
  | flush k =>
    by_cases hk : k = fh
    · subst hk
      exact h.flushSelf
    · have hsame : v.after fh s io (.flush k) ((Op.flush k).exec cfg io s).1 = v := by
        cases ((Op.flush k).exec cfg io s).1 with
        | error e => rfl
        | ok r => exact if_neg hk
      rw [hsame]
      simp only [Op.exec, bind_pure_run]
      exact h.flushOther hk
  | release k =>
    have hkept := h.releaseOther hg io ho
    simp only [Op.exec, bind_pure_run]
    exact hkept
  | setattr ino size given =>
    simp only [Op.exec, bind_pure_run]
    exact h.setattr hg ino size given _
  | unlink parent name =>
    refine (Keeps.bind_pure ?_).snd h
    exact keeps_unlink hc.stable hc.dirtySizes hb hi.forgetStable parent name
  | mkdir parent name =>
    refine (Keeps.bind_pure ?_).snd h
    exact keeps_mkdir hc.stable ht hb hi.internStable parent name
  | rmdir parent name =>
    exact (keeps_rmdir hc.stable hb hi.forgetStable parent name).bind_pure.snd h
  | rename parent name newparent newname =>
    refine (Keeps.bind_pure ?_).snd h
    exact keeps_rename hc.stable hb hi sees_dstFree parent name newparent newname

/-! ## Runs -/

theorem Mounted.run_sees {m m' : Mounted} {es : List MountEvent} (h : Sees fh v m.vfs)
    (hg : Held m.images m.vfs) (hes : ∀ e ∈ es, e.KeepsOpen fh) (hrun : run cfg m es = some m')
    (hrunning : m'.running = true) : Sees fh (Session.run cfg fh m es v) m'.vfs := by
  induction es generalizing m v with
  | nil =>
    obtain rfl := Option.some.inj hrun
    exact h
  | cons e es ih =>
    obtain ⟨m₁, hstep, hrest⟩ := Machine.run_cons_eq_some.mp hrun
    have htail : ∀ e' ∈ es, e'.KeepsOpen fh := fun e' he' => hes e' (List.mem_cons_of_mem e he')
    cases e with
    | op io o =>
      obtain ⟨-, rfl⟩ := step_op hstep
      exact ih (exec_sees h hg (hes _ List.mem_cons_self)) (exec_heldStep hg o).held htail hrest
    | unmount removed =>
      -- the run is over
      obtain ⟨-, rfl⟩ := step_unmount hstep
      cases es with
      | nil =>
        obtain rfl := Option.some.inj hrest
        cases hrunning
      | cons e' es =>
        obtain ⟨m₂, hstep', -⟩ := Machine.run_cons_eq_some.mp hrest
        cases e' with
        | op io o => cases hstep'
        | unmount removed' => cases hstep'

/-! ## From the open on -/

/-- A file that is opened for writing, or created. -/
inductive Opens (io : Io) (s : Vfs) : Op → Reply → Nat → Session → Prop where
  | file (ino : Nat) (flags : BitVec 32) (fh : Nat) (hflags : Vfs.opensForWriting flags = true)
      (hmeta : io.metadata = none) :
      Opens io s (.openFile ino flags) (.opened fh) fh
        ⟨.ofList (Image.opened io (flags &&& Vfs.oTrunc ≠ 0) (s.objectOf ino)).bytes,
          (Image.opened io (flags &&& Vfs.oTrunc ≠ 0) (s.objectOf ino)).unsaved⟩
  | created (parent : Nat) (name : Str) (ino fh : Nat) (a : Attr) :
      Opens io s (.create parent name) (.created ino fh a) fh ⟨.ofList [], true⟩

/-- The size that an open records is that of the cache file. -/
theorem openFile_measured {ino : Nat} {flags : BitVec 32} (hmeta : io.metadata = none)
    (hflags : Vfs.opensForWriting flags = true)
    (hrun : Vfs.openFile cfg io ino flags s = (.ok fh, s')) :
    ∃ w b, s'.handles[fh]? = some ⟨ino, .write w⟩ ∧ s'.cache w.path = some b ∧ w.size = b.length := by
  cases hn : s.inodes.get ino with
  | none =>
    obtain ⟨e, he⟩ := node_none hn
    rw [show Vfs.openFile cfg io ino flags s = (.error e, s) from bind_error he] at hrun
    cases hrun
  | some n =>
    rw [show Vfs.openFile cfg io ino flags s = _ from bind_ok (node_ok hn)] at hrun
    cases hdir : n.kind.isDir with
    | true =>
      rw [hdir] at hrun
      cases hrun
    | false =>
      have halloc : Vfs.allocFh s = (.ok s.nextHandle, { s with nextFh := s.nextHandle }) := rfl
      simp only [hdir, Bool.false_eq_true, if_false] at hrun
      rw [bind_ok halloc] at hrun
      simp only [hflags, Bool.not_true, Bool.false_eq_true, if_false, cfg.objUrl_eq,
        ofExcept_ok_bind] at hrun
      have hmeasured := WriterRun.triple_populate hmeta (flags &&& Vfs.oTrunc ≠ 0) (cfg.url n.key)
        (.h s.nextHandle) { s with nextFh := s.nextHandle } trivial
      cases hpop : Vfs.populate io (flags &&& Vfs.oTrunc ≠ 0) (cfg.url n.key) (.h s.nextHandle)
          { s with nextFh := s.nextHandle } with
      | mk r t =>
        rw [hpop] at hmeasured
        cases r with
        | error e =>
          rw [bind_error hpop] at hrun
          cases hrun
        | ok opened =>
          rw [bind_ok hpop] at hrun
          obtain ⟨b, hb, hsize⟩ := hmeasured
          obtain ⟨hfh, rfl⟩ := Prod.mk.inj hrun
          obtain rfl := Except.ok.inj hfh
          exact ⟨_, b, Vfs.handles_withHandle_self t s.nextHandle _, hb, hsize⟩

theorem Opens.sees {o : Op} {r : Reply} (h : Opens io s o r fh v)
    (hrun : o.exec cfg io s = (.ok r, s')) : Sees fh v s' := by
  cases h with
  | file ino flags fh hflags hmeta =>
    simp only [Op.exec, bind_pure_run] at hrun
    have hspec := openFile_spec cfg io ino flags s
    cases hopen : Vfs.openFile cfg io ino flags s with
    | mk r t =>
      rw [hopen] at hspec hrun
      cases hspec with
      | read src size hflags' hs =>
        rw [hflags] at hflags'
        cases hflags'
      | @write _ n m size hflags' hn hm hs hc =>
        obtain ⟨hreply, rfl⟩ := Prod.mk.inj hrun
        obtain rfl := Reply.opened.inj (Except.ok.inj hreply)
        obtain ⟨w, b, hw, hb, hsize⟩ := openFile_measured hmeta hflags hopen
        subst hm
        obtain ⟨a, d, z, rfl⟩ := hs
        rw [show (Vfs.handles _)[s.nextHandle]? = some _ from
          Vfs.handles_withHandle_self _ s.nextHandle _] at hw
        obtain rfl : (⟨.h s.nextHandle, cfg.url n.key, size, _⟩ : Writer) = w := by
          simpa using hw
        have hcache := Vfs.cache_withFile_self { s with nextFh := s.nextHandle } (.h s.nextHandle)
          (some (Image.opened io (flags &&& Vfs.oTrunc ≠ 0) (s.objectOf ino)).bytes)
        obtain rfl := Option.some.inj (hcache.symm.trans hb)
        refine ⟨⟨ino, _, Vfs.handles_withHandle_self _ s.nextHandle _, rfl, ?_, rfl⟩, ?_, le_rfl⟩
        · exact hsize
        · rw [PosixFile.toList_ofList]
          exact Vfs.cache_withFile_self _ _ _
      | error e k c hk hs => cases hrun
  | created parent name ino fh a =>
    rw [exec_create] at hrun
    have hspec := create_spec cfg io parent name s
    cases hcreate : Vfs.create cfg io parent name s with
    | mk r t =>
      rw [hcreate] at hspec hrun
      cases hspec with
      | @ok _ p ino' t' a' hp hdir hin hs now hc =>
        obtain ⟨hreply, rfl⟩ := Prod.mk.inj hrun
        obtain ⟨-, rfl, -⟩ := Reply.created.inj (Except.ok.inj hreply)
        obtain ⟨a, d, z, rfl⟩ := hs
        refine ⟨⟨_, _, Vfs.handles_withHandle_self _ s.nextHandle _, rfl, rfl, rfl⟩, ?_, le_rfl⟩
        exact Vfs.cache_withFile_self _ _ _
      | error e => cases hrun
      | noFile e hp hdir hin => cases hrun

/-- What is read through the handle. -/
theorem Sees.read (h : Sees fh v s) (hio : io.readAt = none) (ino offset size : Nat) :
    (Op.read ino fh offset size).exec cfg io s = (.ok (.data (v.file.read offset size)), s) := by
  obtain ⟨ino', w, hh, -⟩ := h.writer
  obtain ⟨hpath, hsize, -, hfile⟩ := h.fileOf hh
  have hread : Vfs.readWriter io w offset size s = (.ok (v.file.read offset size), s) :=
    WriterRun.WriteBack.read (s := ⟨s, w, some v.file.toList⟩)
      ⟨(congrArg s.cache hpath).trans h.cache, hsize, fun _ => rfl⟩ hio offset size
  have hhandle : Vfs.readHandle cfg io ino fh offset size s = (.ok (v.file.read offset size), s) := by
    simp only [Vfs.readHandle, get_bind, hh]
    exact hread
  exact bind_ok hhandle

/-- What a flush or a release of the handle stores when it succeeds. -/
theorem Sees.commit (h : Sees fh v s) {o : Op} (ho : o = .flush fh ∨ o = .release fh) {r : Reply}
    (hrun : o.exec cfg io s = (.ok r, s')) : ∃ ino w, s.handles[fh]? = some ⟨ino, .write w⟩ ∧
      s'.bucket = if v.unsaved then (s.put io w.dst.path v.file.toList).bucket else s.bucket := by
  obtain ⟨ino, w, hh, -⟩ := h.writer
  refine ⟨ino, w, hh, ?_⟩
  rcases ho with rfl | rfl
  · simp only [Op.exec, bind_pure_run] at hrun
    rcases h.flushWriter_cases io hh rfl rfl with ⟨u, hflush, -, -, -, hbucket⟩ | ⟨e, u, hflush, -⟩
    · rw [flushHandle_ok hh hflush] at hrun
      obtain ⟨-, rfl⟩ := Prod.mk.inj hrun
      exact hbucket
    · rw [flushHandle_error hh hflush] at hrun
      cases hrun
  · simp only [Op.exec, bind_pure_run] at hrun
    rcases h.flushWriter_cases io hh (t := s.close fh) rfl rfl with
      ⟨u, hflush, -, -, -, hbucket⟩ | ⟨e, u, hflush, -⟩
    · obtain ⟨t, ht, ⟨a, d, z, rfl⟩, -⟩ := release_ok hh hflush
      rw [ht] at hrun
      obtain ⟨-, rfl⟩ := Prod.mk.inj hrun
      exact hbucket
    · rw [release_error hh hflush] at hrun
      cases hrun

/-- **An open write handle is a POSIX file of its own.** Take any run of the mount in which a
handle is opened for writing and not yet released, the cache file taking all that is written
through it. Whatever else happens in the run, a read through the handle returns what POSIX
prescribes for the object that was opened and the writes and truncations of this handle, and
changes nothing. A flush or a release that succeeds then stores exactly this file at the key the
writer has, or nothing if it was saved already, and leaves all other objects alone. -/
theorem open_handle_posix (cfg : VfsConfig) (rootKey : Str) (bucket : Str → Option Stored)
    (before : List MountEvent) (m₀ : Mounted)
    (hbefore : Mounted.run cfg (.new rootKey bucket) before = some m₀) (hmounted : m₀.running = true)
    (io₀ : Io) (o₀ : Op) (r₀ : Reply) (fh : Nat) (v : Session) (hopens : Opens io₀ m₀.vfs o₀ r₀ fh v)
    (hopen : (o₀.exec cfg io₀ m₀.vfs).1 = .ok r₀) (es : List MountEvent) (m : Mounted)
    (hrun : Mounted.run cfg (m₀.exec cfg io₀ o₀) es = some m) (hrunning : m.running = true)
    (hes : ∀ e ∈ es, e.KeepsOpen fh) :
    (∀ io ino offset size, io.readAt = none →
      (Op.read ino fh offset size).exec cfg io m.vfs =
        (.ok (.data ((Session.run cfg fh (m₀.exec cfg io₀ o₀) es v).file.read offset size)), m.vfs)) ∧
      ∀ io o r s', o = Op.flush fh ∨ o = Op.release fh → o.exec cfg io m.vfs = (.ok r, s') →
        ∃ ino w, m.vfs.handles[fh]? = some ⟨ino, .write w⟩ ∧
          s'.bucket = if (Session.run cfg fh (m₀.exec cfg io₀ o₀) es v).unsaved then
              (m.vfs.put io w.dst.path (Session.run cfg fh (m₀.exec cfg io₀ o₀) es v).file.toList).bucket
            else m.vfs.bucket := by
  have hheld := Mounted.run_running_held hbefore hmounted
  have hopened : Sees fh v (m₀.exec cfg io₀ o₀).vfs := hopens.sees (Prod.ext hopen rfl)
  have hheld' : Held (m₀.exec cfg io₀ o₀).images (m₀.exec cfg io₀ o₀).vfs :=
    (exec_heldStep hheld o₀).held
  have hsees := Mounted.run_sees hopened hheld' hes hrun hrunning
  refine ⟨fun io ino offset size hio => hsees.read hio ino offset size, ?_⟩
  intro io o r s' ho hexec
  exact hsees.commit ho hexec

namespace OpenHandleSample

open Mounted

/-- A mount of a bucket with an object of two zero bytes. -/
def mounted : Mounted := .new [] fun k => if k = "a".toList then some ⟨[0, 0], none⟩ else none

def found : List MountEvent := [.op {} (.lookup rootInode "a".toList)]

/-- The first handle writes a byte; another one on the same file is opened, writes, uploads and
is released, and the file is renamed. -/
def busy : List MountEvent :=
  [.op {} (.openFile 2 1), .op {} (.write 1 1 [7]), .op {} (.write 2 0 [9]), .op {} (.release 2),
    .op {} (.rename rootInode "a".toList rootInode "b".toList)]

theorem open_handle_posix_busy :
    ∃ m₀ m, run .sample mounted found = some m₀ ∧
      run .sample (m₀.exec .sample {} (.openFile 2 1)) busy = some m ∧
      (Op.read 2 1 0 5).exec .sample {} m.vfs = (.ok (.data [0, 7]), m.vfs) := by
  obtain ⟨m₀, hm₀, hmounted, hopen, hany, hread⟩ :
      ∃ m₀, run .sample mounted found = some m₀ ∧ m₀.running = true ∧
        ((Op.openFile 2 1).exec .sample {} m₀.vfs).1 = .ok (.opened 1) ∧
        ((run .sample (m₀.exec .sample {} (.openFile 2 1)) busy).any fun m => decide (m.running = true)) = true ∧
        (Session.run .sample 1 (m₀.exec .sample {} (.openFile 2 1)) busy
          ⟨.ofList (Image.opened {} (1 &&& Vfs.oTrunc ≠ 0) (m₀.vfs.objectOf 2)).bytes,
            (Image.opened {} (1 &&& Vfs.oTrunc ≠ 0) (m₀.vfs.objectOf 2)).unsaved⟩).file.read 0 5 =
          [0, 7] := Machine.exists_run_of_any (by decide +kernel)
  obtain ⟨m, hm, hrunning⟩ := Machine.exists_run_of_any hany
  have hposix := open_handle_posix .sample [] _ found m₀ hm₀ hmounted {} (.openFile 2 1) (.opened 1) 1
    _ (.file 2 1 1 (by decide) rfl) hopen busy m hm hrunning
    (by simp [busy, MountEvent.KeepsOpen])
  have hdata := hposix.1 {} 2 0 5 rfl
  rw [hread] at hdata
  exact ⟨m₀, m, hm₀, hm, hdata⟩

end OpenHandleSample

end Rs5cmd
