import Rs5cmd.Mount.Image
import Rs5cmd.Mount.VfsSpec

/-!
# What the operations on handles do

One lemma for each outcome of each operation that opens, writes, uploads or
closes a file: the state it leaves, up to the attribute, directory and size
caches.
-/

namespace Rs5cmd

open Cmd

variable {cfg : VfsConfig} {io : Io}

/-! ## States -/

/-- The two states differ at most in the attribute, directory and size caches. -/
def UpToCaches (s s' : Vfs) : Prop :=
  ∃ a d z, s' = { s with attrCache := a, dirCache := d, dirtySizes := z }

theorem UpToCaches.refl (s : Vfs) : UpToCaches s s := ⟨_, _, _, rfl⟩

theorem UpToCaches.cacheFree (s : Vfs) : CacheFree (UpToCaches s) where
  attrCache := by
    rintro _ c ⟨a, d, z, rfl⟩
    exact ⟨c, d, z, rfl⟩
  dirCache := by
    rintro _ c ⟨a, d, z, rfl⟩
    exact ⟨a, c, z, rfl⟩
  dirtySizes := by
    rintro _ c ⟨a, d, z, rfl⟩
    exact ⟨a, d, c, rfl⟩

theorem CacheFree.apply {I : Vfs → Prop} (h : CacheFree I) {s s' : Vfs} (hs : I s)
    (hu : UpToCaches s s') : I s' := by
  obtain ⟨a, d, z, rfl⟩ := hu
  exact h.dirtySizes _ z (h.dirCache _ d (h.attrCache _ a hs))

/-- The sizes of unflushed files are `z`, and no listing is cached that was not
before. -/
structure CachesFrom (s : Vfs) (z : Std.ExtTreeMap Nat (Nat × Int) compare) (s' : Vfs) : Prop where
  dirtySizes : s'.dirtySizes = z
  dirCache : ∀ (i : Nat) e, s'.dirCache[i]? = some e → s.dirCache[i]? = some e

theorem CachesFrom.same (s : Vfs) : CachesFrom s s.dirtySizes s := ⟨rfl, fun _ _ h => h⟩

theorem CacheStable.apply {I : Vfs → Prop} (h : CacheStable I) (hd : DirtyFree I) {s s' : Vfs}
    {z : Std.ExtTreeMap Nat (Nat × Int) compare} (hs : I s) (hu : UpToCaches s s')
    (hc : CachesFrom s z s') : I s' := by
  obtain ⟨a, d, z, rfl⟩ := hu
  exact hd _ z (h.dirDrop { s with attrCache := a } d hc.dirCache (h.attrCache s a hs))

theorem CachesFrom.attrFree (s : Vfs) (z : Std.ExtTreeMap Nat (Nat × Int) compare) :
    AttrFree (CachesFrom s z) :=
  fun _ _ h => ⟨h.dirtySizes, h.dirCache⟩

/-- An object is stored. -/
def Vfs.put (s : Vfs) (io : Io) (key : Str) (b : List UInt8) : Vfs :=
  { s with bucket := Function.update s.bucket key (some ⟨b, some io.now⟩) }

/-- The cache file `p` holds `b`, or is gone. -/
def Vfs.withFile (s : Vfs) (p : CacheFile) (b : Option (List UInt8)) : Vfs :=
  { s with cache := Function.update s.cache p b }

def Vfs.withHandle (s : Vfs) (fh : Nat) (of : OpenFile) : Vfs :=
  { s with handles := s.handles.insert fh of }

/-- The handle is no longer open. -/
def Vfs.close (s : Vfs) (fh : Nat) : Vfs := { s with handles := s.handles.erase fh }

@[simp] theorem Vfs.handles_withHandle_self (s : Vfs) (fh : Nat) (of : OpenFile) :
    (s.withHandle fh of).handles[fh]? = some of :=
  Std.ExtTreeMap.getElem?_insert_self

theorem Vfs.handles_withHandle_of_ne (s : Vfs) {fh k : Nat} (h : k ≠ fh) (of : OpenFile) :
    (s.withHandle fh of).handles[k]? = s.handles[k]? := by
  show (s.handles.insert fh of)[k]? = _
  exact Maps.getElem?_insert_of_ne h.symm

@[simp] theorem Vfs.handles_close_self (s : Vfs) (fh : Nat) : (s.close fh).handles[fh]? = none :=
  Std.ExtTreeMap.getElem?_erase_self

theorem Vfs.handles_close_of_ne (s : Vfs) {fh k : Nat} (h : k ≠ fh) :
    (s.close fh).handles[k]? = s.handles[k]? := by
  show (s.handles.erase fh)[k]? = _
  exact Maps.getElem?_erase_of_ne h.symm

@[simp] theorem Vfs.cache_withFile_self (s : Vfs) (p : CacheFile) (b : Option (List UInt8)) :
    (s.withFile p b).cache p = b := by
  simp [Vfs.withFile]

theorem Vfs.cache_withFile_of_ne (s : Vfs) {p q : CacheFile} (h : q ≠ p) (b : Option (List UInt8)) :
    (s.withFile p b).cache q = s.cache q := by
  simp [Vfs.withFile, h]

@[simp] theorem Vfs.bucket_withHandle (s : Vfs) (fh : Nat) (of : OpenFile) :
    (s.withHandle fh of).bucket = s.bucket := rfl

@[simp] theorem Vfs.bucket_put_self (s : Vfs) (io : Io) (key : Str) (b : List UInt8) :
    (s.put io key b).bucket key = some ⟨b, some io.now⟩ := by
  simp [Vfs.put]

theorem Vfs.bucket_put_of_ne (s : Vfs) (io : Io) {key k : Str} (h : k ≠ key) (b : List UInt8) :
    (s.put io key b).bucket k = s.bucket k := by
  simp [Vfs.put, h]

theorem writer_of_handle {s : Vfs} {fh ino : Nat} {w : Writer}
    (h : s.handles[fh]? = some ⟨ino, .write w⟩) : s.writer fh = some w := by
  simp only [Vfs.writer, h]

theorem writer_eq_none_or (s : Vfs) (fh : Nat) :
    s.writer fh = none ∨ ∃ ino w, s.handles[fh]? = some ⟨ino, .write w⟩ := by
  unfold Vfs.writer
  rcases s.handles[fh]? with _ | ⟨ino, _ | w⟩
  · exact Or.inl rfl
  · exact Or.inl rfl
  · exact Or.inr ⟨ino, w, rfl⟩

/-- An open writer, from what can be read off the state. -/
theorem handle_of_writer {s : Vfs} {fh ino : Nat} {key : Str}
    (hino : (s.handles[fh]?).map OpenFile.ino = some ino)
    (hkey : (s.writer fh).map (fun w => w.dst.path) = some key) :
    ∃ w, s.handles[fh]? = some ⟨ino, .write w⟩ ∧ w.dst.path = key := by
  rcases writer_eq_none_or s fh with hno | ⟨i, w, hh⟩
  · rw [hno] at hkey
    cases hkey
  · rw [writer_of_handle hh] at hkey
    rw [hh] at hino
    obtain rfl : i = ino := Option.some.inj hino
    exact ⟨w, hh, Option.some.inj hkey⟩

/-! ## Uploads -/

/-- What an upload that fails leaves: it may have reached the bucket. -/
def MaybePut (io : Io) (file : CacheFile) (dst : Url) (s s' : Vfs) : Prop :=
  s' = s ∨ ∃ b, s.cache file = some b ∧ s' = s.put io dst.path b

theorem upload_ok {file : CacheFile} {s : Vfs} {b : List UInt8} (hfile : s.cache file = some b)
    (hio : io.upload = none) (dst : Url) :
    Vfs.upload io file dst s = (.ok (), s.put io dst.path b) := by
  simp only [Vfs.upload, get_bind, hfile, hio]
  rfl

theorem upload_cases (io : Io) (file : CacheFile) (dst : Url) (s : Vfs) :
    (∃ b, s.cache file = some b ∧ Vfs.upload io file dst s = (.ok (), s.put io dst.path b)) ∨
      ∃ e s', Vfs.upload io file dst s = (.error e, s') ∧ MaybePut io file dst s s' := by
  cases hfile : s.cache file with
  | none =>
    have hrun : Vfs.upload io file dst s =
        (.error (.storage (.msg "No such file or directory (os error 2)".toList)), s) := by
      simp only [Vfs.upload, get_bind, hfile]
      rfl
    exact Or.inr ⟨_, s, hrun, Or.inl rfl⟩
  | some b =>
    cases hio : io.upload with
    | none => exact Or.inl ⟨b, rfl, upload_ok hfile hio dst⟩
    | some fault =>
      obtain ⟨e, applied⟩ := fault
      refine Or.inr ⟨.storage e, if applied then s.put io dst.path b else s, ?_, ?_⟩
      · simp only [Vfs.upload, get_bind, hfile, hio, Vfs.request]
        cases applied <;> rfl
      · cases applied with
        | false => exact Or.inl rfl
        | true => exact Or.inr ⟨b, hfile, rfl⟩

/-- A flush of a clean writer does nothing; one of a dirty writer uploads its
cache file or fails. -/
theorem flushWriter_cases (io : Io) (w : Writer) (s : Vfs) :
    (w.dirty = false ∧ Vfs.flushWriter io w s = (.ok w, s)) ∨
      (w.dirty = true ∧ ∃ b, s.cache w.path = some b ∧
        Vfs.flushWriter io w s = (.ok { w with dirty := false }, s.put io w.dst.path b)) ∨
      (w.dirty = true ∧ ∃ e s', Vfs.flushWriter io w s = (.error e, s') ∧
        MaybePut io w.path w.dst s s') := by
  unfold Vfs.flushWriter
  cases hdirty : w.dirty with
  | false => exact Or.inl ⟨rfl, rfl⟩
  | true =>
    refine Or.inr ?_
    simp only [Bool.not_true, Bool.false_eq_true, if_false, true_and]
    cases hsync : io.syncAll with
    | some e => exact Or.inr ⟨_, s, rfl, Or.inl rfl⟩
    | none =>
      obtain ⟨b, hb, hup⟩ | ⟨e, s', hup, hs'⟩ := upload_cases io w.path w.dst s
      · exact Or.inl ⟨b, hb, bind_ok hup⟩
      · exact Or.inr ⟨e, s', bind_error hup, hs'⟩

theorem flushWriter_dirty {w : Writer} {s : Vfs} {b : List UInt8} (hdirty : w.dirty = true)
    (hfile : s.cache w.path = some b) (hsync : io.syncAll = none) (hio : io.upload = none) :
    Vfs.flushWriter io w s = (.ok { w with dirty := false }, s.put io w.dst.path b) := by
  unfold Vfs.flushWriter
  simp only [hdirty, hsync, Bool.not_true, Bool.false_eq_true, if_false]
  exact bind_ok (upload_ok hfile hio w.dst)

theorem flushWriter_clean {w : Writer} {s : Vfs} (hdirty : w.dirty = false) :
    Vfs.flushWriter io w s = (.ok w, s) := by
  simp only [Vfs.flushWriter, hdirty]
  rfl

/-! ## Flush and release -/

theorem flushHandle_noWriter (io : Io) {s : Vfs} {fh : Nat} (h : s.writer fh = none) :
    Vfs.flushHandle io fh s = (.ok (), s) := by
  simp only [Vfs.flushHandle, get_bind]
  rcases hh : s.handles[fh]? with _ | ⟨ino, _ | w⟩
  · rfl
  · rfl
  · exact absurd (h.symm.trans (writer_of_handle hh)) (by simp)

theorem flushHandle_ok {s t : Vfs} {fh ino : Nat} {w w' : Writer}
    (hh : s.handles[fh]? = some ⟨ino, .write w⟩) (hf : Vfs.flushWriter io w s = (.ok w', t)) :
    Vfs.flushHandle io fh s = (.ok (), t.withHandle fh ⟨ino, .write w'⟩) := by
  simp only [Vfs.flushHandle, get_bind, hh]
  exact bind_ok hf

theorem flushHandle_error {s t : Vfs} {fh ino : Nat} {w : Writer} {e : MountError}
    (hh : s.handles[fh]? = some ⟨ino, .write w⟩) (hf : Vfs.flushWriter io w s = (.error e, t)) :
    Vfs.flushHandle io fh s = (.error e, t) := by
  simp only [Vfs.flushHandle, get_bind, hh]
  exact bind_error hf

theorem release_noWriter (io : Io) {s : Vfs} {fh : Nat} (h : s.writer fh = none) :
    Vfs.release io fh s = (.ok (), s) ∨ Vfs.release io fh s = (.ok (), s.close fh) := by
  simp only [Vfs.release, get_bind]
  rcases hh : s.handles[fh]? with _ | ⟨ino, _ | w⟩
  · exact Or.inl rfl
  · exact Or.inr rfl
  · exact absurd (h.symm.trans (writer_of_handle hh)) (by simp)

theorem release_ok {s t : Vfs} {fh ino : Nat} {w w' : Writer}
    (hh : s.handles[fh]? = some ⟨ino, .write w⟩)
    (hf : Vfs.flushWriter io w (s.close fh) = (.ok w', t)) :
    ∃ s', Vfs.release io fh s = (.ok (), s') ∧ UpToCaches (t.withFile w'.path none) s' ∧
      CachesFrom t (t.dirtySizes.erase ino) s' := by
  have hf' : Vfs.flushWriter io w { s with handles := s.handles.erase fh } = (.ok w', t) := hf
  refine ⟨{ t.withFile w'.path none with
    dirtySizes := t.dirtySizes.erase ino
    attrCache := t.attrCache.insert ino (⟨ino, .file, w'.size, io.now⟩, io.instant)
    dirCache := t.dirCache.erase (t.parentOf ino) }, ?_, ⟨_, _, _, rfl⟩, rfl,
    fun _ _ => mem_dirCache_erase⟩
  simp only [Vfs.release, get_bind, hh, modify_bind, attempt_bind]
  rw [hf']
  rfl

theorem release_error {s t : Vfs} {fh ino : Nat} {w : Writer} {e : MountError}
    (hh : s.handles[fh]? = some ⟨ino, .write w⟩)
    (hf : Vfs.flushWriter io w (s.close fh) = (.error e, t)) :
    Vfs.release io fh s = (.error e, t) := by
  simp only [Vfs.release, get_bind, hh, modify_bind, attempt_bind]
  have hf' : Vfs.flushWriter io w { s with handles := s.handles.erase fh } = (.error e, t) := hf
  rw [hf']
  rfl

/-! ## URLs -/

/-- The URL of an object of the mount. -/
def VfsConfig.url (cfg : VfsConfig) (key : Str) : Url :=
  Url.parsed .remote "s3".toList cfg.bucket key {}

@[simp] theorem VfsConfig.url_path (cfg : VfsConfig) (key : Str) : (cfg.url key).path = key := rfl

/-- Every key has a URL, and its path is the key. -/
theorem VfsConfig.objUrl_eq (cfg : VfsConfig) (key : Str) : cfg.objUrl key = .ok (cfg.url key) := by
  have hparse : Url.parse ("s3://".toList ++ cfg.bucket ++ '/' :: key) = .ok (cfg.url key) := by
    rw [List.append_assoc]
    exact Url.parse_remote ⟨cfg.bucket_ne, cfg.bucket_slash, cfg.bucket_glob⟩ key
  rw [VfsConfig.objUrl, hparse]

/-! ## Writes -/

/-- The bytes of a writer's cache file. -/
def Vfs.fileOf (s : Vfs) (w : Writer) : List UInt8 := (s.cache w.path).getD []

theorem writeHandle_noWriter (io : Io) {s : Vfs} {fh : Nat} (h : s.writer fh = none) (offset : Nat)
    (data : List UInt8) : ∃ e, Vfs.writeHandle io fh offset data s = (.error e, s) := by
  have hof : ∃ e, Vfs.writeHandleOf fh s = (.error e, s) := by
    simp only [Vfs.writeHandleOf, get_bind]
    rcases hh : s.handles[fh]? with _ | ⟨ino, _ | w⟩
    · exact ⟨_, rfl⟩
    · exact ⟨_, rfl⟩
    · exact absurd (h.symm.trans (writer_of_handle hh)) (by simp)
  obtain ⟨e, he⟩ := hof
  exact ⟨e, bind_error he⟩

theorem writeHandleOf_eq {s : Vfs} {fh ino : Nat} {w : Writer}
    (hh : s.handles[fh]? = some ⟨ino, .write w⟩) : Vfs.writeHandleOf fh s = (.ok (ino, w), s) := by
  simp only [Vfs.writeHandleOf, get_bind, hh]
  rfl

/-- A writer after a write. -/
def Writer.wrote (w : Writer) (offset : Nat) (data : List UInt8) : Writer :=
  { w with size := max w.size (Vfs.saturatingAdd offset data.length), dirty := true }

theorem writeHandle_ok {s : Vfs} {fh ino : Nat} {w : Writer}
    (hh : s.handles[fh]? = some ⟨ino, .write w⟩) (hio : io.write = none) (offset : Nat)
    (data : List UInt8) :
    ∃ s', Vfs.writeHandle io fh offset data s = (.ok data.length, s') ∧
      UpToCaches ((s.withFile w.path (some (Bytes.writeAt offset data (s.fileOf w)))).withHandle fh
        ⟨ino, .write (w.wrote offset data)⟩) s' ∧
      CachesFrom s (s.dirtySizes.insert ino ((w.wrote offset data).size, io.now)) s' := by
  have hrun : Vfs.writeWriter io fh ino w offset data s = (.ok (w.wrote offset data),
      (s.withFile w.path (some (Bytes.writeAt offset data (s.fileOf w)))).withHandle fh
        ⟨ino, .write (w.wrote offset data)⟩) := by
    simp only [Vfs.writeWriter, get_bind, hio]
    rfl
  refine ⟨_, (bind_ok (writeHandleOf_eq hh)).trans ((bind_ok hrun).trans rfl), ⟨_, _, _, rfl⟩,
    rfl, fun _ _ h => h⟩

theorem writeHandle_error {s : Vfs} {fh ino : Nat} {w : Writer}
    (hh : s.handles[fh]? = some ⟨ino, .write w⟩) {fault : Nat × StorageError}
    (hio : io.write = some fault) (offset : Nat) (data : List UInt8) :
    ∃ e, Vfs.writeHandle io fh offset data s = (.error e,
      s.withFile w.path (some (Bytes.writeAt offset (io.write.written data) (s.fileOf w)))) := by
  have hrun : Vfs.writeWriter io fh ino w offset data s = (.error (.storage fault.2),
      s.withFile w.path (some (Bytes.writeAt offset (io.write.written data) (s.fileOf w)))) := by
    simp only [Vfs.writeWriter, get_bind, hio]
    rfl
  exact ⟨_, (bind_ok (writeHandleOf_eq hh)).trans (bind_error hrun)⟩

/-! ## Opening -/

theorem stat_none {s : Vfs} {u : Url} {o : Stored} (h : s.bucket u.path = some o) :
    ∃ obj, Vfs.stat none u s = (.ok obj, s) := by
  simp only [Vfs.stat, get_bind, h]
  exact ⟨_, rfl⟩

theorem openCacheFile_ok (hio : io.openCache = none) (p : CacheFile) (trunc : Bool) (s : Vfs) :
    Vfs.openCacheFile io p trunc s =
      (.ok (), s.withFile p (some (if trunc then [] else (s.cache p).getD []))) := by
  simp only [Vfs.openCacheFile, hio, get_bind]
  cases s.cache p with
  | none => cases trunc <;> rfl
  | some b => rfl

theorem openCacheFile_error {e : StorageError} (hio : io.openCache = some e) (p : CacheFile)
    (trunc : Bool) (s : Vfs) : Vfs.openCacheFile io p trunc s = (.error (.storage e), s) := by
  simp only [Vfs.openCacheFile, hio]
  rfl

theorem Vfs.withFile_self (s : Vfs) (p : CacheFile) : s.withFile p (s.cache p) = s := by
  simp [Vfs.withFile]

theorem Vfs.withFile_withFile (s : Vfs) (p : CacheFile) (b c : Option (List UInt8)) :
    (s.withFile p b).withFile p c = s.withFile p c := by
  simp [Vfs.withFile]

/-- The outcomes of populating a cache file: it holds the image and is dirty when
that is unsaved, or the open fails. -/
def Populated (s : Vfs) (p : CacheFile) (m : Image) (r : Except MountError (Nat × Bool) × Vfs) :
    Prop :=
  (∃ size, r = (.ok (size, m.unsaved), s.withFile p (some m.bytes))) ∨
    ∃ e c, r = (.error e, s.withFile p c)

/-- An empty file to start from. -/
def Vfs.populateEmpty (io : Io) (p : CacheFile) : VfsM (Nat × Bool) := do
  openCacheFile io p true
  return (0, true)

theorem populated_empty (io : Io) (s : Vfs) (p : CacheFile) (c : Option (List UInt8)) :
    Populated s p ⟨[], true⟩ (Vfs.populateEmpty io p (s.withFile p c)) := by
  cases hio : io.openCache with
  | none =>
    refine Or.inl ⟨0, (bind_ok (openCacheFile_ok hio p true _)).trans ?_⟩
    rw [Vfs.withFile_withFile]
    rfl
  | some e => exact Or.inr ⟨_, c, bind_error (openCacheFile_error hio p true _)⟩

/-- After a failed request: an empty file when nothing was found, else the error. -/
theorem populated_error (io : Io) (e : MountError) (s : Vfs) (p : CacheFile)
    (c : Option (List UInt8)) :
    Populated s p ⟨[], true⟩
      ((if e.isNotFound then Vfs.populateEmpty io p else fail e) (s.withFile p c)) := by
  cases e.isNotFound with
  | true => exact populated_empty io s p c
  | false => exact Or.inr ⟨e, c, rfl⟩

theorem populate_spec (io : Io) (trunc : Bool) (dst : Url) (p : CacheFile) (s : Vfs) :
    Populated s p (Image.opened io trunc (s.bucket dst.path)) (Vfs.populate io trunc dst p s) := by
  have hself := s.withFile_self p
  unfold Vfs.populate
  cases trunc with
  | true =>
    have h := populated_empty io s p (s.cache p)
    rw [hself] at h
    exact h
  | false =>
    have hstart : ∀ e : MountError, Populated s p ⟨[], true⟩
        ((if e.isNotFound then Vfs.populateEmpty io p else fail e) s) := by
      intro e
      have h := populated_error io e s p (s.cache p)
      rw [hself] at h
      exact h
    simp only [Bool.false_eq_true, if_false, attempt_bind]
    cases hstat : io.stat with
    | some e =>
      simp only [Image.opened, hstat, Bool.false_eq_true, if_false]
      exact hstart (.storage e)
    | none =>
      cases hobj : s.bucket dst.path with
      | none =>
        have hrun : Vfs.stat none dst s = (.error (notFound dst.absolute), s) := by
          simp only [Vfs.stat, get_bind, hobj]
          rfl
        have himage : Image.opened io false none = ⟨[], true⟩ := by
          simp only [Image.opened, hstat, Bool.false_eq_true, if_false]
          cases io.download <;> rfl
        rw [hrun, himage]
        exact hstart _
      | some o =>
        obtain ⟨obj, hrun⟩ := stat_none hobj
        rw [hrun]
        simp only [attempt_bind]
        cases hdown : io.download with
        | some e =>
          have hd : Vfs.downloadTo io dst p s = (.error (.storage e), s) := by
            simp only [Vfs.downloadTo, hdown]
            rfl
          rw [hd]
          simp only [Image.opened, hstat, hdown, Bool.false_eq_true, if_false]
          exact populated_error io (.storage e) s p none
        | none =>
          have hd : Vfs.downloadTo io dst p s = (.ok (), s.withFile p (some o.bytes)) := by
            simp only [Vfs.downloadTo, hdown, get_bind, hobj]
            rfl
          rw [hd]
          simp only [Image.opened, hstat, hdown, Bool.false_eq_true, if_false]
          cases hio : io.openCache with
          | some e => exact Or.inr ⟨_, some o.bytes, bind_error (openCacheFile_error hio p false _)⟩
          | none =>
            have hopen : Vfs.openCacheFile io p false (s.withFile p (some o.bytes)) =
                (.ok (), s.withFile p (some o.bytes)) := by
              rw [openCacheFile_ok hio, Vfs.withFile_withFile]
              simp [Vfs.withFile]
            exact Or.inl ⟨_, bind_ok hopen⟩

theorem node_ok {s : Vfs} {ino : Nat} {n : Node} (h : s.inodes.get ino = some n) :
    Vfs.node ino s = (.ok n, s) := by
  simp only [Vfs.node, get_bind, h]
  rfl

theorem node_none {s : Vfs} {ino : Nat} (h : s.inodes.get ino = none) :
    ∃ e, Vfs.node ino s = (.error e, s) := by
  simp only [Vfs.node, get_bind, h]
  exact ⟨_, rfl⟩

/-- The handle that the next open gets. -/
def Vfs.nextHandle (s : Vfs) : Nat := s.nextFh + 1

/-- The outcomes of an open: a read handle, a write handle whose cache file holds
the image, or an error that leaves at most a cache file of a handle that is not
open. -/
inductive OpenOutcome (cfg : VfsConfig) (io : Io) (s : Vfs) (ino : Nat) (flags : BitVec 32) :
    Except MountError Nat × Vfs → Prop where
  | read {s' : Vfs} (src : Url) (size : Nat) (hflags : Vfs.opensForWriting flags = false)
      (hs : UpToCaches ({ s with nextFh := s.nextHandle }.withHandle s.nextHandle
        ⟨ino, .read src size⟩) s') (hc : CachesFrom s s.dirtySizes s') :
      OpenOutcome cfg io s ino flags (.ok s.nextHandle, s')
  | write {s' : Vfs} {n : Node} {m : Image} (size : Nat) (hflags : Vfs.opensForWriting flags = true)
      (hn : s.inodes.get ino = some n)
      (hm : m = Image.opened io (flags &&& Vfs.oTrunc ≠ 0) (s.objectOf ino))
      (hs : UpToCaches (({ s with nextFh := s.nextHandle }.withFile (.h s.nextHandle)
        (some m.bytes)).withHandle s.nextHandle
          ⟨ino, .write ⟨.h s.nextHandle, cfg.url n.key, size, m.unsaved⟩⟩) s')
      (hc : CachesFrom s (s.dirtySizes.insert ino (size, io.now)) s') :
      OpenOutcome cfg io s ino flags (.ok s.nextHandle, s')
  | error {s' : Vfs} (e : MountError) (k : Nat) (c : Option (List UInt8)) (hk : s.nextFh ≤ k)
      (hs : UpToCaches ({ s with nextFh := k }.withFile (.h s.nextHandle) c) s')
      (hc : CachesFrom s s.dirtySizes s') :
      OpenOutcome cfg io s ino flags (.error e, s')

theorem getattr_upToCaches (cfg : VfsConfig) (io : Io) (ino : Nat) (s : Vfs) :
    UpToCaches s (Vfs.getattr cfg io ino s).2 :=
  (keeps_getattr (UpToCaches.cacheFree s).attrCache ino).snd (UpToCaches.refl s)

theorem openOutcome_error (cfg : VfsConfig) (io : Io) (ino : Nat) (flags : BitVec 32) (s : Vfs)
    (e : MountError) {k : Nat} (hk : s.nextFh ≤ k) {s' : Vfs}
    (hs : UpToCaches { s with nextFh := k } s') (hc : CachesFrom s s.dirtySizes s') :
    OpenOutcome cfg io s ino flags (.error e, s') := by
  refine .error e k (s.cache (.h s.nextHandle)) hk ?_ hc
  have hself := Vfs.withFile_self { s with nextFh := k } (.h s.nextHandle)
  rw [hself]
  exact hs

theorem openFile_spec (cfg : VfsConfig) (io : Io) (ino : Nat) (flags : BitVec 32) (s : Vfs) :
    OpenOutcome cfg io s ino flags (Vfs.openFile cfg io ino flags s) := by
  have hsame : UpToCaches { s with nextFh := s.nextFh } s := UpToCaches.refl s
  cases hn : s.inodes.get ino with
  | none =>
    obtain ⟨e, he⟩ := node_none hn
    rw [show Vfs.openFile cfg io ino flags s = (.error e, s) from bind_error he]
    exact openOutcome_error cfg io ino flags s e le_rfl hsame (CachesFrom.same s)
  | some n =>
    rw [show Vfs.openFile cfg io ino flags s = _ from bind_ok (node_ok hn)]
    cases n.kind.isDir with
    | true => exact openOutcome_error cfg io ino flags s _ le_rfl hsame (CachesFrom.same s)
    | false =>
      simp only [Bool.false_eq_true, if_false]
      have halloc : Vfs.allocFh s = (.ok s.nextHandle, { s with nextFh := s.nextHandle }) := rfl
      rw [bind_ok halloc]
      cases hflags : Vfs.opensForWriting flags with
      | false =>
        simp only [Bool.not_false, if_true]
        have hattr := getattr_upToCaches cfg io ino { s with nextFh := s.nextHandle }
        have hcaches : CachesFrom s s.dirtySizes
            (Vfs.getattr cfg io ino { s with nextFh := s.nextHandle }).2 :=
          (keeps_getattr (CachesFrom.attrFree s s.dirtySizes) ino).snd ⟨rfl, fun _ _ h => h⟩
        cases hrun : Vfs.getattr cfg io ino { s with nextFh := s.nextHandle } with
        | mk r t =>
          rw [hrun] at hattr hcaches
          cases r with
          | error e =>
            rw [bind_error hrun]
            exact openOutcome_error cfg io ino flags s e (Nat.le_succ _) hattr hcaches
          | ok attr =>
            rw [bind_ok hrun, cfg.objUrl_eq]
            obtain ⟨a, d, z, rfl⟩ := hattr
            exact .read _ _ hflags ⟨a, d, z, rfl⟩ ⟨hcaches.dirtySizes, hcaches.dirCache⟩
      | true =>
        simp only [Bool.not_true, Bool.false_eq_true, if_false, cfg.objUrl_eq, ofExcept_ok_bind]
        have hobj : s.objectOf ino = s.bucket n.key := by simp only [Vfs.objectOf, hn, Option.bind_some]
        rcases populate_spec io (flags &&& Vfs.oTrunc ≠ 0) (cfg.url n.key) (.h s.nextHandle)
          { s with nextFh := s.nextHandle } with ⟨size, hrun⟩ | ⟨e, c, hrun⟩
        · rw [bind_ok hrun]
          exact .write size hflags hn rfl ⟨_, _, _, by rw [hobj]; rfl⟩ ⟨rfl, fun _ _ h => h⟩
        · rw [bind_error hrun]
          exact .error e s.nextHandle c (Nat.le_succ _) (UpToCaches.refl _) ⟨rfl, fun _ _ h => h⟩

/-- The outcomes of `create`: a write handle on a new, empty cache file, or an
error that leaves at most a new inode and a handle number that is not used. -/
inductive CreateOutcome (cfg : VfsConfig) (s : Vfs) (parent : Nat) (name : Str) :
    Except MountError (Nat × Nat × Attr) × Vfs → Prop where
  | ok {s' : Vfs} {p : Node} {ino : Nat} {t : InodeTable} (a : Attr)
      (hp : s.inodes.get parent = some p) (hdir : p.kind.isDir = true)
      (hin : s.inodes.intern (p.key ++ name) .file parent = (ino, t))
      (hs : UpToCaches (({ s with inodes := t, nextFh := s.nextHandle }.withFile (.h s.nextHandle)
        (some [])).withHandle s.nextHandle
          ⟨ino, .write ⟨.h s.nextHandle, cfg.url (p.key ++ name), 0, true⟩⟩) s')
      (now : Int) (hc : CachesFrom s (s.dirtySizes.insert ino (0, now)) s') :
      CreateOutcome cfg s parent name (.ok (ino, s.nextHandle, a), s')
  | error (e : MountError) : CreateOutcome cfg s parent name (.error e, s)
  | noFile {p : Node} {ino : Nat} {t : InodeTable} (e : MountError)
      (hp : s.inodes.get parent = some p) (hdir : p.kind.isDir = true)
      (hin : s.inodes.intern (p.key ++ name) .file parent = (ino, t)) :
      CreateOutcome cfg s parent name
        (.error e, { s with inodes := t, nextFh := s.nextHandle })

theorem create_spec (cfg : VfsConfig) (io : Io) (parent : Nat) (name : Str) (s : Vfs) :
    CreateOutcome cfg s parent name (Vfs.create cfg io parent name s) := by
  cases hp : s.inodes.get parent with
  | none =>
    obtain ⟨e, he⟩ := node_none hp
    rw [show Vfs.create cfg io parent name s = (.error e, s) from bind_error he]
    exact .error e
  | some p =>
    rw [show Vfs.create cfg io parent name s = _ from bind_ok (node_ok hp)]
    cases hdir : p.kind.isDir with
    | false => exact .error _
    | true =>
      simp only [Bool.not_true, Bool.false_eq_true, if_false]
      cases hin : s.inodes.intern (p.key ++ name) .file parent with
      | mk ino t =>
        have hintern : Vfs.intern (p.key ++ name) .file parent s = (.ok ino, { s with inodes := t }) := by
          simp only [Vfs.intern, hin]
        have halloc : Vfs.allocFh { s with inodes := t } =
            (.ok s.nextHandle, { s with inodes := t, nextFh := s.nextHandle }) := rfl
        rw [bind_ok hintern, bind_ok halloc]
        cases hio : io.openCache with
        | some e =>
          rw [bind_error (openCacheFile_error hio _ _ _)]
          exact .noFile _ hp hdir hin
        | none =>
          rw [bind_ok (openCacheFile_ok hio _ _ _)]
          simp only [cfg.objUrl_eq, ofExcept_ok_bind]
          exact .ok _ hp hdir hin ⟨_, _, _, rfl⟩ io.now ⟨rfl, fun _ _ => mem_dirCache_erase⟩

theorem exec_create (cfg : VfsConfig) (io : Io) (parent : Nat) (name : Str) (s : Vfs) :
    Op.exec cfg io (.create parent name) s =
      ((Vfs.create cfg io parent name s).1.map fun x => .created x.1 x.2.1 x.2.2,
        (Vfs.create cfg io parent name s).2) :=
  bind_pure_run _ _ s

/-! ## Truncating -/

theorem findWriteHandle_some {s : Vfs} {ino fh : Nat} {given : Option Nat} {w : Writer}
    (h : s.findWriteHandle io ino given = some (fh, w)) :
    s.handles[fh]? = some ⟨ino, .write w⟩ := by
  unfold Vfs.findWriteHandle at h
  dsimp only at h
  split at h
  · rename_i r hr
    obtain ⟨g, rfl, hg⟩ := Option.bind_eq_some_iff.mp hr
    obtain rfl := Option.some.inj h
    split at hg
    · rename_i hino w' hh
      split at hg
      · rename_i heq
        obtain ⟨rfl, rfl⟩ := Prod.mk.inj (Option.some.inj hg)
        rw [← heq]
        exact hh
      · cases hg
    · cases hg
  · obtain ⟨e, he, hfind⟩ := List.exists_of_findSome?_eq_some h
    split at hfind
    · rename_i w' hkind
      split at hfind
      · rename_i heq
        obtain ⟨rfl, rfl⟩ := Prod.mk.inj (Option.some.inj hfind)
        rw [Maps.mem_inOrder_toList.mp he, ← heq, ← hkind]
      · cases hfind
    · cases hfind

theorem findWriteHandle_none {s : Vfs} {ino : Nat} {given : Option Nat}
    (h : s.findWriteHandle io ino given = none) (fh : Nat) (w : Writer) :
    s.handles[fh]? ≠ some ⟨ino, .write w⟩ := by
  intro hh
  unfold Vfs.findWriteHandle at h
  dsimp only at h
  split at h
  · cases h
  · have hmem : (fh, (⟨ino, .write w⟩ : OpenFile)) ∈ Maps.inOrder io.order s.handles.toList :=
      Maps.mem_inOrder_toList.mpr hh
    have hskip := List.findSome?_eq_none_iff.mp h _ hmem
    simp at hskip

theorem setattr_noHandle {I : Vfs → Prop} (h : AttrFree I) (ht : TempFree I) (hb : BucketFree I)
    {s : Vfs} (hs : I s) {ino : Nat} {size fh : Option Nat}
    (hno : size = none ∨ s.findWriteHandle io ino fh = none) :
    I (Vfs.setattr cfg io ino size fh s).2 := by
  cases size with
  | none => exact (keeps_getattr h ino).snd hs
  | some newSize =>
    have hfind : s.findWriteHandle io ino fh = none := hno.resolve_left (by simp)
    have hkeep : Keeps I (do
        Vfs.truncateObject cfg io ino newSize
        Vfs.getattr cfg io ino) :=
      Keeps.bind (keeps_truncateObject h ht hb ino newSize) fun _ => keeps_getattr h ino
    have hrun : Vfs.setattr cfg io ino (some newSize) fh s = (do
        Vfs.truncateObject cfg io ino newSize
        Vfs.getattr cfg io ino : VfsM Attr) s := by
      simp only [Vfs.setattr, get_bind, hfind]
    rw [hrun]
    exact hkeep.snd hs

/-- A writer after a truncation. -/
def Writer.truncated (w : Writer) (newSize : Nat) : Writer :=
  { w with size := newSize, dirty := true }

theorem setattr_ok {s : Vfs} {ino h : Nat} {fh : Option Nat} {w : Writer}
    (hfind : s.findWriteHandle io ino fh = some (h, w)) (hio : io.setLen = none) (newSize : Nat) :
    UpToCaches ((s.withFile w.path (some (Bytes.setLen newSize (s.fileOf w)))).withHandle h
      ⟨ino, .write (w.truncated newSize)⟩) (Vfs.setattr cfg io ino (some newSize) fh s).2 ∧
    CachesFrom s (s.dirtySizes.insert ino (newSize, io.now))
      (Vfs.setattr cfg io ino (some newSize) fh s).2 := by
  simp only [Vfs.setattr, get_bind, hfind, hio]
  constructor
  · refine (keeps_getattr (UpToCaches.cacheFree _).attrCache ino).snd ?_
    exact ⟨_, _, _, rfl⟩
  · refine (keeps_getattr (CachesFrom.attrFree _ _) ino).snd ?_
    exact ⟨rfl, fun _ _ h => h⟩

theorem setattr_error {s : Vfs} {ino h : Nat} {fh : Option Nat} {w : Writer}
    (hfind : s.findWriteHandle io ino fh = some (h, w)) {e : StorageError} (hio : io.setLen = some e)
    (newSize : Nat) : Vfs.setattr cfg io ino (some newSize) fh s = (.error (.storage e), s) := by
  simp only [Vfs.setattr, get_bind, hfind, hio]
  rfl

/-! ## Renaming -/

section Rename

variable {I : Vfs → Prop}

theorem keeps_dropStale (h : AttrFree I) (hf : ForgetStable I) (newFile : Str) :
    Keeps I (Vfs.dropStale newFile) := by
  refine Keeps.bind keeps_get fun s => ?_
  split
  · exact Keeps.bind (keeps_invalidateAttr h _) fun _ => keeps_forget hf _
  · exact keeps_pure _

theorem keeps_repoint (hd : DstFree I) (ino : Nat) (newFile : Str) :
    Keeps I (Vfs.repoint cfg io ino newFile) := by
  apply keeps_of_snd
  intro s hs
  simp only [Vfs.repoint, get_bind, cfg.objUrl_eq]
  cases hfind : s.findWriteHandle io ino none with
  | none => exact hs
  | some r => exact hd s r.1 ino r.2 _ (findWriteHandle_some hfind) hs

theorem keeps_rekeyFile (h : AttrFree I) (hi : InodeFree I) (hd : DstFree I)
    (oldFile newFile : Str) : Keeps I (Vfs.rekeyFile cfg io oldFile newFile) := by
  refine Keeps.bind (keeps_dropStale h hi.forgetStable _) fun _ => Keeps.bind keeps_get fun s => ?_
  split
  · exact keeps_pure _
  · refine Keeps.bind (keeps_modify fun s => hi s _) fun _ => ?_
    exact Keeps.bind (keeps_invalidateAttr h _) fun _ => keeps_repoint hd _ _

theorem keeps_rekeyTree (h : AttrFree I) (hi : InodeFree I) (oldPrefix newPrefix : Str) :
    Keeps I (Vfs.rekeyTree io oldPrefix newPrefix) := by
  refine Keeps.bind keeps_get fun s => Keeps.bind (keeps_modify fun s => hi s _) fun _ => ?_
  exact keeps_forEach _ fun ino _ => keeps_invalidateAttr h ino

/-- A rename moves objects, changes inodes and re-points writers. -/
theorem keeps_rename (h : CacheStable I) (hb : BucketFree I) (hi : InodeFree I) (hd : DstFree I)
    (parent : Nat) (name : Str) (newparent : Nat) (newname : Str) :
    Keeps I (Vfs.rename cfg io parent name newparent newname) := by
  refine Keeps.bind (keeps_node _) fun _ => Keeps.bind (keeps_node _) fun _ => ?_
  refine Keeps.bind (keeps_ofExcept _) fun _ => Keeps.bind (keeps_stat _ _).attempt ?_
  intro r
  split
  · refine Keeps.bind (keeps_moveFile hb _ _) fun _ => ?_
    refine Keeps.bind (keeps_rekeyFile h.attrCache hi hd _ _) fun _ => ?_
    exact Keeps.bind (keeps_invalidateDir h _) fun _ => keeps_invalidateDir h _
  · split
    · exact keeps_fail _
    · refine Keeps.bind (keeps_moveTree hb _ _ _) fun _ => ?_
      refine Keeps.bind (keeps_rekeyTree h.attrCache hi _ _) fun _ => ?_
      exact Keeps.bind (keeps_invalidateDir h _) fun _ => keeps_invalidateDir h _

end Rename

/-! ## Assertions about open writers -/

/-- The assertion survives what writes, uploads and closes do: cache files
change, handles close, a writer changes other than in where it uploads to, and
what an open writer uploads is stored. -/
structure WriterStable (I : Vfs → Prop) : Prop where
  file : ∀ (s : Vfs) p b, I s → I (s.withFile p b)
  close : ∀ (s : Vfs) fh, I s → I (s.close fh)
  writer : ∀ (s : Vfs) (fh ino : Nat) (w w' : Writer), s.handles[fh]? = some ⟨ino, .write w⟩ →
    w'.dst = w.dst → I s → I (s.withHandle fh ⟨ino, .write w'⟩)
  stored : ∀ (s : Vfs) (io : Io) (fh ino : Nat) (w : Writer) (b : List UInt8),
    s.handles[fh]? = some ⟨ino, .write w⟩ → I s → I (s.put io w.dst.path b)

section WriterStable

variable {I : Vfs → Prop}

theorem keeps_writeHandle (h : CacheStable I) (hd : DirtyFree I) (hw : WriterStable I) (fh offset : Nat)
    (data : List UInt8) : Keeps I (Vfs.writeHandle io fh offset data) := by
  apply keeps_of_snd
  intro s hs
  rcases writer_eq_none_or s fh with hno | ⟨ino, w, hh⟩
  · obtain ⟨e, he⟩ := writeHandle_noWriter io hno offset data
    rw [he]
    exact hs
  · cases hio : io.write with
    | none =>
      obtain ⟨u, hu, hup, hc⟩ := writeHandle_ok hh hio offset data
      rw [hu]
      refine h.apply hd ?_ hup ⟨hc.dirtySizes, hc.dirCache⟩
      exact hw.writer _ fh ino w (w.wrote offset data) hh rfl (hw.file s _ _ hs)
    | some fault =>
      obtain ⟨e, he⟩ := writeHandle_error hh hio offset data
      rw [he]
      exact hw.file s _ _ hs

theorem keeps_flushHandle (hw : WriterStable I) (fh : Nat) : Keeps I (Vfs.flushHandle io fh) := by
  apply keeps_of_snd
  intro s hs
  rcases writer_eq_none_or s fh with hno | ⟨ino, w, hh⟩
  · rw [flushHandle_noWriter io hno]
    exact hs
  · rcases flushWriter_cases io w s with ⟨-, hrun⟩ | ⟨-, b, -, hrun⟩ | ⟨-, e, u, hrun, hu⟩
    · rw [flushHandle_ok hh hrun]
      exact hw.writer s fh ino w w hh rfl hs
    · rw [flushHandle_ok hh hrun]
      exact hw.writer _ fh ino w _ hh rfl (hw.stored s io fh ino w b hh hs)
    · rw [flushHandle_error hh hrun]
      rcases hu with rfl | ⟨b, -, rfl⟩
      · exact hs
      · exact hw.stored s io fh ino w b hh hs

theorem keeps_release (h : CacheStable I) (hd : DirtyFree I) (hw : WriterStable I) (fh : Nat) :
    Keeps I (Vfs.release io fh) := by
  apply keeps_of_snd
  intro s hs
  rcases writer_eq_none_or s fh with hno | ⟨ino, w, hh⟩
  · rcases release_noWriter io hno with hrun | hrun
    · rw [hrun]
      exact hs
    · rw [hrun]
      exact hw.close s fh hs
  · -- storing and closing can be seen in either order
    have hput : ∀ b, I ((s.close fh).put io w.dst.path b) := fun b =>
      hw.close _ fh (hw.stored s io fh ino w b hh hs)
    rcases flushWriter_cases io w (s.close fh) with
      ⟨-, hrun⟩ | ⟨-, b, -, hrun⟩ | ⟨-, e, u, hrun, hu⟩
    · obtain ⟨u, hu, hup, hc⟩ := release_ok hh hrun
      rw [hu]
      exact h.apply hd (hw.file _ _ _ (hw.close s fh hs)) hup ⟨hc.dirtySizes, hc.dirCache⟩
    · obtain ⟨u, hu, hup, hc⟩ := release_ok hh hrun
      rw [hu]
      exact h.apply hd (hw.file _ _ _ (hput b)) hup ⟨hc.dirtySizes, hc.dirCache⟩
    · rw [release_error hh hrun]
      rcases hu with rfl | ⟨b, -, rfl⟩
      · exact hw.close s fh hs
      · exact hput b

theorem keeps_setattr (h : CacheStable I) (hd : DirtyFree I) (ht : TempFree I) (hb : BucketFree I)
    (hw : WriterStable I) (ino : Nat) (size fh : Option Nat) : Keeps I (Vfs.setattr cfg io ino size fh) := by
  apply keeps_of_snd
  intro s hs
  cases size with
  | none => exact setattr_noHandle h.attrCache ht hb hs (Or.inl rfl)
  | some newSize =>
    cases hfind : s.findWriteHandle io ino fh with
    | none => exact setattr_noHandle h.attrCache ht hb hs (Or.inr hfind)
    | some r =>
      obtain ⟨k, w⟩ := r
      have hh := findWriteHandle_some hfind
      cases hio : io.setLen with
      | some e =>
        rw [setattr_error hfind hio]
        exact hs
      | none =>
        obtain ⟨hup, hc⟩ := @setattr_ok cfg io s ino k fh w hfind hio newSize
        refine h.apply hd ?_ hup ⟨hc.dirtySizes, hc.dirCache⟩
        exact hw.writer _ k ino w (w.truncated newSize) hh rfl (hw.file s _ _ hs)

end WriterStable

end Rs5cmd
