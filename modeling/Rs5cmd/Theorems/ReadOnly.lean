import Rs5cmd.Lib.Machine
import Rs5cmd.Mount.FuseSpec
import Rs5cmd.Mount.HandleSpec

/-!
# A read-only mount

A request on a read-only mount changes the bucket only through a handle that is
open for writing, and the adapter lets one be opened only by an `open` that asks
for reading and for truncation at once. Without such a request no handle of a run
is ever open for writing, and nothing is uploaded, copied or deleted.
-/

namespace Rs5cmd

open Cmd

/-! ## Requests that change the bucket -/

/-- Answers to the requests that change the bucket. -/
structure WriteAnswers where
  upload : RequestFault
  copy : Nat → RequestFault
  delete : Nat → RequestFault

/-- The same answers except to the requests that change the bucket. -/
def Io.answerWrites (io : Io) (w : WriteAnswers) : Io :=
  { io with upload := w.upload, copy := w.copy, delete := w.delete }

def FuseEvent.answerWrites (e : FuseEvent) (w : Nat → WriteAnswers) : FuseEvent :=
  { e with ios := fun k => (e.ios k).answerWrites (w k) }

namespace S3Fuse

variable {fs : S3Fuse} {cfg : VfsConfig}

/-- The bucket is left alone: it does not change, and it makes no difference how an
upload, a put, a copy or a delete would be answered, failures included. -/
def Silent (fs : S3Fuse) (cfg : VfsConfig) (s : Vfs) (e : FuseEvent) : Prop :=
  (fs.exec cfg e.ios e.request s).2.bucket = s.bucket ∧
    ∀ w, fs.exec cfg (e.answerWrites w).ios e.request s = fs.exec cfg e.ios e.request s

/-- An `open` for reading that asks for truncation. -/
def TruncatingRead : FuseRequest → Prop
  | .openFile _ flags => flags &&& Vfs.oAccmode = 0 ∧ flags &&& Vfs.oTrunc ≠ 0
  | _ => False

/-! ## The invariant -/

/-- No handle is open for writing, and the bucket is the given one. -/
structure Untouched (b : Str → Option Stored) (s : Vfs) : Prop where
  bucket : s.bucket = b
  reading : ∀ fh, s.writer fh = none

variable {b : Str → Option Stored}

theorem untouched_cacheFree : CacheFree (Untouched b) where
  attrCache _ _ h := ⟨h.bucket, h.reading⟩
  dirCache _ _ h := ⟨h.bucket, h.reading⟩
  dirtySizes _ _ h := ⟨h.bucket, h.reading⟩

theorem untouched_internStable : InternStable (Untouched b) :=
  fun _ _ _ _ h => ⟨h.bucket, h.reading⟩

theorem Untouched.close {s : Vfs} (hs : Untouched b s) (fh : Nat) : Untouched b (s.close fh) := by
  refine ⟨hs.bucket, ?_⟩
  intro k
  by_cases hk : k = fh
  · simp only [Vfs.writer, hk, Vfs.handles_close_self]
  · have hw := hs.reading k
    simp only [Vfs.writer, Vfs.handles_close_of_ne s hk] at hw ⊢
    exact hw

/-- Opening a file for reading. -/
theorem keeps_openFile {io : Io} {ino : Nat} {flags : BitVec 32}
    (hread : Vfs.opensForWriting flags = false) :
    Keeps (Untouched b) (Vfs.openFile cfg io ino flags) := by
  refine keeps_of_snd ?_
  intro s hs
  cases hrun : Vfs.openFile cfg io ino flags s with
  | mk r s' =>
    have hspec := openFile_spec cfg io ino flags s
    rw [hrun] at hspec
    cases hspec with
    | read src size hflags hup =>
      have hopened : Untouched b ({ s with nextFh := s.nextHandle }.withHandle s.nextHandle
          ⟨ino, .read src size⟩) := by
        refine ⟨hs.bucket, ?_⟩
        intro k
        by_cases hk : k = s.nextHandle
        · simp only [Vfs.writer, hk, Vfs.handles_withHandle_self]
        · have hw := hs.reading k
          simp only [Vfs.writer, Vfs.handles_withHandle_of_ne _ hk] at hw ⊢
          exact hw
      exact untouched_cacheFree.apply hopened hup
    | write size hflags hn hm hup =>
      rw [hread] at hflags
      cases hflags
    | error e k c hk hup =>
      have hfailed : Untouched b ({ s with nextFh := k }.withFile (.h s.nextHandle) c) :=
        ⟨hs.bucket, hs.reading⟩
      exact untouched_cacheFree.apply hfailed hup

theorem plusEntries_answerWrites {ios : Nat → Io} {w : Nat → WriteAnswers} {offset : Nat}
    (all : List ((Nat × Str × NodeKind) × Nat)) :
    fs.plusEntries cfg (fun i => (ios i).answerWrites (w i)) offset all =
      fs.plusEntries cfg ios offset all := by
  induction all with
  | nil => rfl
  | cons e rest ih =>
    obtain ⟨⟨ino, name, kind⟩, i⟩ := e
    unfold plusEntries
    rw [ih]
    rfl

/-- An `open` that does not truncate is refused on a read-only mount, or for
reading. -/
theorem openFile_cases {inode : Nat} {flags : BitVec 32}
    (h : ¬ TruncatingRead (.openFile inode flags)) :
    flags &&& Vfs.oAccmode ≠ 0 ∨ Vfs.opensForWriting flags = false := by
  by_cases hmode : flags &&& Vfs.oAccmode = 0
  · right
    have htrunc : flags &&& Vfs.oTrunc = 0 := by
      by_contra hne
      exact h ⟨hmode, hne⟩
    simp [Vfs.opensForWriting, hmode, htrunc]
  · exact Or.inl hmode

theorem exec_openFile_of_mode (hro : fs.readOnly = true) {ios : Nat → Io} {inode : Nat}
    {flags : BitVec 32} (hmode : flags &&& Vfs.oAccmode ≠ 0) :
    fs.exec cfg ios (.openFile inode flags) = fail .erofs := by
  simp only [exec, hro, hmode, decide_true, Bool.and_true, ne_eq, not_false_eq_true, if_true]

/-! ## One request -/

/-- On a read-only mount without writers a request keeps the bucket and opens no
writer, unless it truncates. -/
theorem exec_keeps (hro : fs.readOnly = true) {ios : Nat → Io} {req : FuseRequest}
    (hreq : ¬ TruncatingRead req) : Keeps (Untouched b) (fs.exec cfg ios req) := by
  have hguard : ∀ m : FuseM FuseReply, Keeps (Untouched b) (fs.guardWrite m) := by
    intro m
    rw [guardWrite, if_pos hro]
    exact keeps_fail _
  have hentries : ∀ ino, Keeps (Untouched b) (dirEntries cfg (ios 0) ino) := fun ino =>
    keeps_dirEntries (keeps_readdir untouched_cacheFree.stable untouched_internStable ino)
  cases req with
  | init | destroy | opendir | releasedir => exact keeps_pure _
  | lookup parent name =>
    refine Keeps.bind (keeps_utf8Name name) ?_
    intro name
    refine Keeps.bind_pure ?_
    exact (keeps_lookup untouched_cacheFree.attrCache untouched_internStable parent name).mapError errno
  | getattr inode =>
    exact ((keeps_getattr untouched_cacheFree.attrCache inode).mapError errno).bind_pure
  | readdir parent offset => exact (hentries parent).bind_pure
  | readdirplus parent offset =>
    refine Keeps.bind (hentries parent) ?_
    intro all
    refine (keeps_plusEntries ?_ _).bind_pure
    exact fun i ino => keeps_getattr untouched_cacheFree.attrCache ino
  | openFile inode flags =>
    rcases openFile_cases hreq with hmode | hread
    · rw [exec_openFile_of_mode hro hmode]
      exact keeps_fail _
    · simp only [exec]
      split
      · exact keeps_fail _
      · have hopen : Keeps (Untouched b) (Vfs.openFile cfg (ios 0) inode flags) := keeps_openFile hread
        exact (hopen.mapError errno).bind_pure
  | read inode fh offset size =>
    refine Keeps.bind_pure ?_
    exact (keeps_readHandle untouched_cacheFree.attrCache inode fh offset size).mapError errno
  | release fh =>
    have hrel : Keeps (Untouched b) (Vfs.release (ios 0) fh) := by
      intro s hs
      rcases release_noWriter (ios 0) (hs.reading fh) with hrun | hrun
      · rw [hrun]
        exact hs
      · rw [hrun]
        exact hs.close fh
    exact (hrel.mapError errno).bind_pure
  | flush fh | fsync fh =>
    have hflush : Keeps (Untouched b) (Vfs.flushHandle (ios 0) fh) := by
      intro s hs
      rw [flushHandle_noWriter (ios 0) (hs.reading fh)]
      exact hs
    exact (hflush.mapError errno).bind_pure
  | setattr inode fh size =>
    simp only [exec]
    split
    · exact keeps_fail _
    · rename_i hsize
      obtain rfl : size = none := by simpa [hro] using hsize
      have hset : Keeps (Untouched b) (Vfs.setattr cfg (ios 0) inode none fh) := by
        show Keeps (Untouched b) (Vfs.getattr cfg (ios 0) inode)
        exact keeps_getattr untouched_cacheFree.attrCache inode
      exact (hset.mapError errno).bind_pure
  | create | write | unlink | mkdir | rmdir | rename => exact hguard _
  | other => exact keeps_fail _

/-- Nor does such a request send anything that would change the bucket. -/
theorem exec_answerWrites (hro : fs.readOnly = true) {s : Vfs} (hs : Untouched b s) {e : FuseEvent}
    (hreq : ¬ TruncatingRead e.request) (w : Nat → WriteAnswers) :
    fs.exec cfg (e.answerWrites w).ios e.request s = fs.exec cfg e.ios e.request s := by
  obtain ⟨ios, req⟩ := e
  have hguard : ∀ m m' : FuseM FuseReply, fs.guardWrite m = fs.guardWrite m' := by
    intro m m'
    rw [guardWrite, guardWrite, if_pos hro, if_pos hro]
  cases req with
  | init | destroy | opendir | releasedir | other => rfl
  -- the calls of these requests do not mention the answers in question
  | lookup | getattr | readdir | read => rfl
  | readdirplus parent offset =>
    simp only [exec, FuseEvent.answerWrites, plusEntries_answerWrites]
    rfl
  | openFile inode flags =>
    rcases openFile_cases hreq with hmode | hread
    · rw [exec_openFile_of_mode hro hmode, exec_openFile_of_mode hro hmode]
    · have hopen : Vfs.openFile cfg ((ios 0).answerWrites (w 0)) inode flags =
          Vfs.openFile cfg (ios 0) inode flags := by
        unfold Vfs.openFile
        rw [hread]
        rfl
      simp only [exec, FuseEvent.answerWrites, hopen]
  | release fh =>
    have hrel : ∀ io, Vfs.release io fh s = Vfs.release {} fh s := by
      intro io
      have hw := hs.reading fh
      simp only [Vfs.release, get_bind]
      rcases hh : s.handles[fh]? with _ | ⟨ino, _ | w⟩
      · rfl
      · rfl
      · exact absurd (hw.symm.trans (writer_of_handle hh)) (by simp)
    simp only [exec, call_bind, hrel]
  | flush fh | fsync fh =>
    simp only [exec, call_bind, flushHandle_noWriter _ (hs.reading fh)]
  | setattr inode fh size =>
    simp only [exec]
    split
    · rfl
    · rename_i hsize
      obtain rfl : size = none := by simpa [hro] using hsize
      rfl
  | create | write | unlink | mkdir | rmdir | rename => exact congrFun (hguard _ _) s

/-! ## Whole runs -/

/-- **A read-only mount leaves the bucket alone.** In every run of a read-only
mount in which no `open` asks for reading and truncation at once, no request
uploads, puts, copies or deletes anything, and the bucket stays what it was. -/
theorem read_only_run_silent (fs : S3Fuse) (hro : fs.readOnly = true) (cfg : VfsConfig) (rootKey : Str)
    (bucket : Str → Option Stored) {es : List FuseEvent} {t : Vfs}
    (h : Machine.run (fs.step cfg) (.new rootKey bucket) es = some t)
    (hes : ∀ e ∈ es, ¬ TruncatingRead e.request) :
    Machine.Along (fs.step cfg) (fs.Silent cfg) (.new rootKey bucket) es ∧ t.bucket = bucket := by
  have hnew : Untouched bucket (Vfs.new rootKey bucket) := by
    refine ⟨rfl, ?_⟩
    intro fh
    simp only [Vfs.writer, Vfs.new, Std.ExtTreeMap.getElem?_empty]
  have hC : Machine.Along (fs.step cfg) (fun _ e => ¬ TruncatingRead e.request)
      (Vfs.new rootKey bucket) es := Machine.along_of_mem _ hes
  have hstep : ∀ s e s', ¬ TruncatingRead (FuseEvent.request e) → fs.step cfg s e = some s' →
      Untouched bucket s → Untouched bucket s' := by
    intro s e s' he hs' hs
    obtain rfl := Option.some.inj hs'
    exact (exec_keeps hro he).snd hs
  refine ⟨?_, (Machine.along_invariant hstep hC h hnew).bucket⟩
  refine hC.mono_of_invariant (I := Untouched bucket) (fun s e s' hs he hs' => hstep s e s' he hs' hs)
    ?_ hnew
  intro s e hs he
  have hnext : Untouched bucket (fs.exec cfg e.ios e.request s).2 := (exec_keeps hro he).snd hs
  exact ⟨hnext.bucket.trans hs.bucket.symm, exec_answerWrites hro hs he⟩

/-- The open of a truncating read, on any mount: a writer with an empty file. -/
theorem writer_of_truncating_read {inode : Nat} {flags : BitVec 32}
    (htrunc : TruncatingRead (.openFile inode flags)) {ios : Nat → Io} {s s' : Vfs} {fh : Nat}
    (h : fs.exec cfg ios (.openFile inode flags) s = (.ok (.opened fh 0), s')) :
    ∃ w, s'.handles[fh]? = some ⟨inode, .write w⟩ ∧ w.dirty = true ∧ s'.cache w.path = some [] := by
  have hflags : Vfs.opensForWriting flags = true := by
    rw [Vfs.opensForWriting, decide_eq_true htrunc.2, Bool.or_true]
  simp only [exec, htrunc.1, ne_eq, not_true_eq_false, decide_false, Bool.and_false,
    Bool.false_eq_true, if_false, call_bind] at h
  have hspec := openFile_spec cfg (ios 0) inode flags s
  cases hrun : Vfs.openFile cfg (ios 0) inode flags s with
  | mk r u =>
    rw [hrun] at h hspec
    cases hspec with
    | read src size hread hup =>
      rw [hflags] at hread
      cases hread
    | error e k c hk hup => cases h
    | @write _ n m size _ hn hm hup =>
      obtain ⟨rfl, rfl⟩ : s.nextHandle = fh ∧ u = s' := by
        have hpair := Prod.mk.inj h
        exact ⟨(FuseReply.opened.inj (Except.ok.inj hpair.1)).1, hpair.2⟩
      have himage : m = ⟨[], true⟩ := by
        rw [hm, decide_eq_true htrunc.2]
        rfl
      subst himage
      obtain ⟨a, d, z, rfl⟩ := hup
      refine ⟨⟨.h s.nextHandle, cfg.url n.key, size, true⟩, ?_, rfl, ?_⟩
      · exact Vfs.handles_withHandle_self _ _ _
      · exact Vfs.cache_withFile_self _ _ _

/-- The condition is needed: the release of a handle that such an `open` returned
uploads the empty file. -/
theorem truncating_read_uploads {inode : Nat} {flags : BitVec 32}
    (htrunc : TruncatingRead (.openFile inode flags)) {ios : Nat → Io} {s s' : Vfs} {fh : Nat}
    (h : fs.exec cfg ios (.openFile inode flags) s = (.ok (.opened fh 0), s')) :
    ¬ fs.Silent cfg s' { request := .release fh } := by
  obtain ⟨w, hw, hdirty, hfile⟩ := writer_of_truncating_read htrunc h
  rintro ⟨-, hsame⟩
  -- the upload succeeds, or it fails: the replies differ
  have hup : Vfs.flushWriter {} w (s'.close fh) = _ :=
    flushWriter_dirty (b := []) hdirty hfile rfl rfl
  obtain ⟨u, hok, -⟩ := release_ok hw hup
  have hfail : Vfs.flushWriter { upload := some (.msg [], false) } w (s'.close fh) =
      (.error (.storage (.msg [])), s'.close fh) := by
    have hfile' : (s'.close fh).cache w.path = some [] := hfile
    simp only [Vfs.flushWriter, hdirty, Bool.not_true, Bool.false_eq_true, if_false, Vfs.upload]
    exact bind_error (by simp only [get_bind, hfile']; rfl)
  have herr := release_error hw hfail
  have h0 := hsame fun _ => ⟨some (.msg [], false), fun _ => none, fun _ => none⟩
  have hfailed : Vfs.release ((FuseEvent.answerWrites { request := .release fh } fun _ =>
      ⟨some (.msg [], false), fun _ => none, fun _ => none⟩).ios 0) fh s' = _ := herr
  simp only [exec, call_bind, hfailed] at h0
  rw [hok] at h0
  cases h0

/-! ## Concrete runs -/

/-- A read-only mount. -/
def sample : S3Fuse := { ttl := 1, readOnly := true, uid := 0, gid := 0 }

/-- A bucket with the object `a`. -/
def sampleBucket (key : Str) : Option Stored :=
  if key = "a".toList then some ⟨[1, 2], some 0⟩ else none

/-- `a` is opened with `O_RDONLY | O_TRUNC` and closed. -/
def truncatedRead : List FuseEvent :=
  [{ request := .lookup rootInode [97] }, { request := .openFile 2 Vfs.oTrunc },
    { request := .release 1 }]

/-- The object is gone although the mount is read-only. -/
theorem read_only_run_empties_object :
    ∃ t, Machine.run (sample.step .sample) (.new [] sampleBucket) truncatedRead = some t ∧
      t.bucket "a".toList = some ⟨[], some 0⟩ ∧
      ¬ Machine.Along (sample.step .sample) (sample.Silent .sample) (.new [] sampleBucket)
        truncatedRead := by
  obtain ⟨t, ht, hbucket⟩ :
      ∃ t, Machine.run (sample.step .sample) (.new [] sampleBucket) truncatedRead = some t ∧
        t.bucket "a".toList = some ⟨[], some 0⟩ := Machine.exists_run_of_any (by decide +kernel)
  refine ⟨t, ht, hbucket, ?_⟩
  intro hsilent
  have hsame : t.bucket = sampleBucket := by
    refine Machine.along_invariant (P := fun s => s.bucket = sampleBucket) ?_ hsilent ht rfl
    intro s e s' he hs' hs
    obtain rfl := Option.some.inj hs'
    exact he.1.trans hs
  rw [hsame] at hbucket
  cases hbucket

/-- `a` is opened for reading, read and closed. -/
def plainRead : List FuseEvent :=
  [{ request := .lookup rootInode [97] }, { request := .openFile 2 0 },
    { ios := fun _ => { readRange := fun _ _ => .ok [1, 2] }, request := .read 2 1 0 4096 },
    { request := .create rootInode [98] }, { request := .release 1 }]

/-- Reading leaves the bucket alone; a create is refused. -/
theorem read_only_run_reads :
    ∃ t, Machine.run (sample.step .sample) (.new [] sampleBucket) plainRead = some t ∧
      t.bucket = sampleBucket ∧
      Machine.Along (sample.step .sample) (sample.Silent .sample) (.new [] sampleBucket)
        plainRead := by
  obtain ⟨t, ht, -⟩ :
      ∃ t, Machine.run (sample.step .sample) (.new [] sampleBucket) plainRead = some t ∧ True :=
    Machine.exists_run_of_any (by decide +kernel)
  have hplain : ∀ e ∈ plainRead, ¬ TruncatingRead e.request := by
    simp [plainRead, TruncatingRead]
  obtain ⟨hsilent, hbucket⟩ := read_only_run_silent sample rfl .sample [] sampleBucket ht hplain
  exact ⟨t, ht, hbucket, hsilent⟩

end S3Fuse

end Rs5cmd
