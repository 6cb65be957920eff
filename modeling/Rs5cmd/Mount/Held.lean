import Rs5cmd.Mount.HandleSpec

/-!
# Cache files and images

The invariant that ties the cache files of a mount to the files its users see:
an open writer's file holds the image and is dirty when that is unsaved, and an
unsaved image stays in its file when the handle is closed. Every operation keeps
it, whichever requests fail.
-/

namespace Rs5cmd

open Cmd

variable {cfg : VfsConfig} {io : Io} {g g' : Images} {s s' : Vfs}

/-! ## The invariant -/

/-- The cache files agree with the images. -/
structure Held (g : Images) (s : Vfs) : Prop where
  /-- An open writer knows whether its image is saved. -/
  writer : ∀ fh ino w, s.handles[fh]? = some ⟨ino, .write w⟩ →
    w.path = .h fh ∧ ∃ b, g fh = some ⟨b, w.dirty⟩ ∧ s.cache (.h fh) = some b
  /-- An unsaved image is in the handle's cache file, open or not. -/
  retained : ∀ fh b, g fh = some ⟨b, true⟩ → s.cache (.h fh) = some b
  fresh : ∀ fh, s.nextFh < fh → g fh = none ∧ s.handles[fh]? = none

/-- What every step does: the agreement holds again, and a handle that was closed
stays closed, with its image. -/
structure HeldStep (g : Images) (s : Vfs) (g' : Images) (s' : Vfs) : Prop where
  held : Held g' s'
  closed : ∀ k, s.writer k = none → k ≤ s.nextFh → s'.writer k = none ∧ g' k = g k

theorem Held.refl (h : Held g s) : HeldStep g s g s := ⟨h, fun _ hk _ => ⟨hk, rfl⟩⟩

/-! ## Changes that the invariant does not see -/

theorem heldStep_cacheFree : CacheFree (HeldStep g s g') where
  attrCache _ _ h := ⟨⟨h.held.writer, h.held.retained, h.held.fresh⟩, h.closed⟩
  dirCache _ _ h := ⟨⟨h.held.writer, h.held.retained, h.held.fresh⟩, h.closed⟩
  dirtySizes _ _ h := ⟨⟨h.held.writer, h.held.retained, h.held.fresh⟩, h.closed⟩

theorem heldStep_bucketFree : BucketFree (HeldStep g s g') :=
  fun _ _ h => ⟨⟨h.held.writer, h.held.retained, h.held.fresh⟩, h.closed⟩

theorem heldStep_inodeFree : InodeFree (HeldStep g s g') :=
  fun _ _ h => ⟨⟨h.held.writer, h.held.retained, h.held.fresh⟩, h.closed⟩

theorem heldStep_tempFree : TempFree (HeldStep g s g') where
  nextFh t h := by
    refine ⟨⟨h.held.writer, h.held.retained, fun fh hfh => ?_⟩, h.closed⟩
    exact h.held.fresh fh (Nat.lt_of_succ_lt hfh)
  temp t p b hp h := by
    have hcache : ∀ fh, Function.update t.cache p b (.h fh) = t.cache (.h fh) := fun fh =>
      Function.update_of_ne (hp fh).symm b t.cache
    refine ⟨⟨fun fh ino w hw => ?_, fun fh c hc => ?_, h.held.fresh⟩, h.closed⟩
    · obtain ⟨hpath, c, hgc, hc⟩ := h.held.writer fh ino w hw
      exact ⟨hpath, c, hgc, (hcache fh).trans hc⟩
    · exact (hcache fh).trans (h.held.retained fh c hc)

theorem heldStep_dstFree : DstFree (HeldStep g s g') := by
  intro t fh ino w url hw h
  refine ⟨⟨fun k kino kw hk => ?_, h.held.retained, fun k hk => ?_⟩, fun k hk hle => ?_⟩
  · by_cases hkf : k = fh
    · subst hkf
      rw [show (t.handles.insert k _)[k]? = some _ from t.handles_withHandle_self k _] at hk
      obtain ⟨-, rfl⟩ : ino = kino ∧ { w with dst := url } = kw := by simpa using hk
      exact h.held.writer k ino w hw
    · rw [show (t.handles.insert fh _)[k]? = _ from t.handles_withHandle_of_ne hkf _] at hk
      exact h.held.writer k kino kw hk
  · have hne : k ≠ fh := by
      rintro rfl
      exact absurd ((h.held.fresh k hk).2.symm.trans hw) (by simp)
    refine ⟨(h.held.fresh k hk).1, ?_⟩
    exact (t.handles_withHandle_of_ne hne _).trans (h.held.fresh k hk).2
  · have hold := h.closed k hk hle
    have hne : k ≠ fh := by
      rintro rfl
      exact absurd (hold.1.symm.trans (writer_of_handle hw)) (by simp)
    refine ⟨?_, hold.2⟩
    have hsame := t.handles_withHandle_of_ne hne ⟨ino, .write { w with dst := url }⟩
    show (t.withHandle fh ⟨ino, .write { w with dst := url }⟩).writer k = none
    unfold Vfs.writer
    rw [hsame]
    exact hold.1

/-! ## Changes of one handle -/

theorem writer_congr {k : Nat} (h : s'.handles[k]? = s.handles[k]?) : s'.writer k = s.writer k := by
  simp only [Vfs.writer, h]

/-- A step that changes only the handle `fh`, which is an open writer or new, has
to be checked for `fh` only. -/
theorem Held.change (h : Held g s) {fh : Nat} (hfh : s.writer fh ≠ none ∨ s.nextFh < fh)
    (hg : ∀ k, k ≠ fh → g' k = g k)
    (hc : ∀ k, k ≠ fh → s'.cache (.h k) = s.cache (.h k))
    (hh : ∀ k, k ≠ fh → s'.handles[k]? = s.handles[k]?)
    (hn : s.nextFh ≤ s'.nextFh) (hle : fh ≤ s'.nextFh)
    (hw : ∀ ino w, s'.handles[fh]? = some ⟨ino, .write w⟩ →
      w.path = .h fh ∧ ∃ b, g' fh = some ⟨b, w.dirty⟩ ∧ s'.cache (.h fh) = some b)
    (hr : ∀ b, g' fh = some ⟨b, true⟩ → s'.cache (.h fh) = some b) : HeldStep g s g' s' := by
  refine ⟨⟨fun k ino w hk => ?_, fun k b hk => ?_, fun k hk => ?_⟩, fun k hk hkle => ?_⟩
  · by_cases hkf : k = fh
    · subst hkf
      exact hw ino w hk
    · rw [hg k hkf, hc k hkf]
      exact h.writer k ino w ((hh k hkf).symm.trans hk)
  · by_cases hkf : k = fh
    · subst hkf
      exact hr b hk
    · rw [hc k hkf]
      exact h.retained k b ((hg k hkf).symm.trans hk)
  · have hkf : k ≠ fh := by omega
    have hold := h.fresh k (by omega)
    exact ⟨(hg k hkf).trans hold.1, (hh k hkf).trans hold.2⟩
  · have hkf : k ≠ fh := by
      rintro rfl
      rcases hfh with hopen | hnew
      · exact hopen hk
      · omega
    exact ⟨(writer_congr (hh k hkf)).trans hk, hg k hkf⟩

theorem Held.le_nextFh (h : Held g s) {fh ino : Nat} {w : Writer}
    (hh : s.handles[fh]? = some ⟨ino, .write w⟩) : fh ≤ s.nextFh := by
  by_contra hlt
  exact absurd ((h.fresh fh (by omega)).2.symm.trans hh) (by simp)

/-- A changed cache file and writer of an open handle. -/
theorem Held.rewrite (h : Held g s) {fh ino : Nat} {w w' : Writer} {m : Image}
    (hh : s.handles[fh]? = some ⟨ino, .write w⟩) (hpath : w'.path = w.path)
    (hdirty : w'.dirty = m.unsaved) :
    HeldStep g s (Function.update g fh (some m))
      ((s.withFile w.path (some m.bytes)).withHandle fh ⟨ino, .write w'⟩) := by
  obtain ⟨hp, b, hgb, hb⟩ := h.writer fh ino w hh
  have hcache : ((s.withFile w.path (some m.bytes)).withHandle fh ⟨ino, .write w'⟩).cache (.h fh) =
      some m.bytes := by
    rw [hp]
    exact s.cache_withFile_self (.h fh) (some m.bytes)
  refine h.change (Or.inl ?_) (fun k hk => Function.update_of_ne hk _ _) (fun k hk => ?_)
    (fun k hk => ?_) le_rfl (h.le_nextFh hh) ?_ ?_
  · rw [writer_of_handle hh]
    simp
  · rw [hp]
    exact s.cache_withFile_of_ne (fun heq => hk (CacheFile.h.inj heq)) _
  · exact (s.withFile w.path (some m.bytes)).handles_withHandle_of_ne hk _
  · intro jno v hv
    rw [Vfs.handles_withHandle_self] at hv
    obtain ⟨-, rfl⟩ : ino = jno ∧ w' = v := by simpa using hv
    refine ⟨hpath.trans hp, m.bytes, ?_, hcache⟩
    rw [Function.update_self, hdirty]
  · intro c hc
    rw [Function.update_self] at hc
    obtain rfl : m = ⟨c, true⟩ := Option.some.inj hc
    exact hcache

/-- A new handle with its cache file. -/
theorem Held.openWrite (h : Held g s) (ino size : Nat) (dst : Url) (m : Image) :
    HeldStep g s (Function.update g s.nextHandle (some m))
      (({ s with nextFh := s.nextHandle }.withFile (.h s.nextHandle) (some m.bytes)).withHandle
        s.nextHandle ⟨ino, .write ⟨.h s.nextHandle, dst, size, m.unsaved⟩⟩) := by
  have hnew : s.nextFh < s.nextHandle := Nat.lt_succ_self _
  have hcache := Vfs.cache_withFile_self { s with nextFh := s.nextHandle } (.h s.nextHandle)
    (some m.bytes)
  refine h.change (Or.inr hnew) (fun k hk => Function.update_of_ne hk _ _) (fun k hk => ?_)
    (fun k hk => ?_) hnew.le le_rfl ?_ ?_
  · exact Vfs.cache_withFile_of_ne { s with nextFh := s.nextHandle }
      (fun heq => hk (CacheFile.h.inj heq)) _
  · exact Vfs.handles_withHandle_of_ne _ hk _
  · intro jno v hv
    rw [Vfs.handles_withHandle_self] at hv
    obtain ⟨-, rfl⟩ : ino = jno ∧ (⟨.h s.nextHandle, dst, size, m.unsaved⟩ : Writer) = v := by
      simpa using hv
    exact ⟨rfl, m.bytes, Function.update_self _ _ _, hcache⟩
  · intro c hc
    rw [Function.update_self] at hc
    obtain rfl : m = ⟨c, true⟩ := Option.some.inj hc
    exact hcache

/-- A closed handle whose image stays: what is unsaved is still in the file. -/
theorem Held.close (h : Held g s) (fh : Nat) : HeldStep g s g (s.close fh) := by
  have hsub : ∀ (k : Nat) of, (s.close fh).handles[k]? = some of → s.handles[k]? = some of := by
    intro k of hk
    by_cases hkf : k = fh
    · subst hkf
      rw [Vfs.handles_close_self] at hk
      cases hk
    · exact (s.handles_close_of_ne hkf).symm.trans hk
  have hnone : ∀ k : Nat, s.handles[k]? = none → (s.close fh).handles[k]? = none := by
    intro k hk
    cases hc : (s.close fh).handles[k]? with
    | none => rfl
    | some of => exact absurd (hk.symm.trans (hsub k of hc)) (by simp)
  refine ⟨⟨fun k ino w hk => h.writer k ino w (hsub k _ hk), h.retained, fun k hk => ?_⟩,
    fun k hk _ => ⟨?_, rfl⟩⟩
  · exact ⟨(h.fresh k hk).1, hnone k (h.fresh k hk).2⟩
  · by_cases hkf : k = fh
    · subst hkf
      simp [Vfs.writer]
    · exact (writer_congr (s.handles_close_of_ne hkf)).trans hk

/-! ## Operations on handles -/

theorem Vfs.withHandle_self {fh : Nat} {of : OpenFile} (h : s.handles[fh]? = some of) :
    s.withHandle fh of = s := by
  have hsame : s.handles.insert fh of = s.handles := by
    apply Std.ExtTreeMap.ext_getElem?
    intro k
    by_cases hk : k = fh
    · subst hk
      rw [h]
      exact s.handles_withHandle_self k of
    · exact s.handles_withHandle_of_ne hk of
  unfold Vfs.withHandle
  rw [hsame]

/-- The image of an open writer, as its cache file has it. -/
theorem Held.image (h : Held g s) {fh ino : Nat} {w : Writer}
    (hh : s.handles[fh]? = some ⟨ino, .write w⟩) :
    g fh = some ⟨s.fileOf w, w.dirty⟩ ∧ s.cache w.path = some (s.fileOf w) := by
  obtain ⟨hp, b, hgb, hb⟩ := h.writer fh ino w hh
  have hfile : s.fileOf w = b := by
    unfold Vfs.fileOf
    rw [hp, hb]
    rfl
  rw [hfile, hp]
  exact ⟨hgb, hb⟩

theorem heldStep_write (h : Held g s) (fh offset : Nat) (data : List UInt8) :
    HeldStep g s (g.step io s (.write fh offset data) (Op.exec cfg io (.write fh offset data) s).1
      (Op.exec cfg io (.write fh offset data) s).2) (Op.exec cfg io (.write fh offset data) s).2 := by
  simp only [Op.exec, bind_pure_run, Images.step]
  rcases writer_eq_none_or s fh with hno | ⟨ino, w, hh⟩
  · obtain ⟨e, he⟩ := writeHandle_noWriter io hno offset data
    rw [he, hno]
    exact h.refl
  · rw [writer_of_handle hh, (h.image hh).1]
    cases hio : io.write with
    | none =>
      obtain ⟨t, ht, hup, -⟩ := writeHandle_ok hh hio offset data
      rw [ht]
      refine heldStep_cacheFree.apply ?_ hup
      have hstep := h.rewrite (m := Image.write io offset data ⟨s.fileOf w, w.dirty⟩) hh
        (show (w.wrote offset data).path = w.path from rfl) (by simp [Image.write, Writer.wrote, hio])
      simpa [Image.write, hio, WriteFault.written] using hstep
    | some fault =>
      obtain ⟨e, he⟩ := writeHandle_error hh hio offset data
      rw [he]
      have hstep := h.rewrite (m := Image.write io offset data ⟨s.fileOf w, w.dirty⟩) hh
        (show w.path = w.path from rfl) (by simp [Image.write, hio])
      have hsame := Vfs.withHandle_self
        (s := s.withFile w.path (some (Image.write io offset data ⟨s.fileOf w, w.dirty⟩).bytes)) hh
      rw [hsame] at hstep
      exact hstep

/-- A writer that is saved after its upload. -/
theorem save_uploaded {b : List UInt8} (key : Str) (u : Bool) :
    Image.save ((s.put io key b).bucket key) ⟨b, u⟩ = ⟨b, false⟩ := by
  simp [Image.save]

theorem save_clean (o : Option Stored) (b : List UInt8) :
    Image.save o ⟨b, false⟩ = ⟨b, false⟩ := by
  simp [Image.save]

/-- What a failed upload leaves. -/
theorem HeldStep.maybePut {t : Vfs} {file : CacheFile} {dst : Url} (h : HeldStep g s g' s')
    (ht : MaybePut io file dst s' t) : HeldStep g s g' t := by
  rcases ht with rfl | ⟨b, -, rfl⟩
  · exact h
  · exact heldStep_bucketFree _ _ h

/-- The writer of an open handle after its upload. -/
theorem Held.saved (h : Held g s) {fh ino : Nat} {w : Writer}
    (hh : s.handles[fh]? = some ⟨ino, .write w⟩) :
    HeldStep g s (Function.update g fh (some ⟨s.fileOf w, false⟩))
      ((s.put io w.dst.path (s.fileOf w)).withHandle fh ⟨ino, .write { w with dirty := false }⟩) := by
  have hstep := h.rewrite (m := ⟨s.fileOf w, false⟩) hh
    (show ({ w with dirty := false } : Writer).path = w.path from rfl) rfl
  have hsame : s.withFile w.path (some (s.fileOf w)) = s := by
    rw [← (h.image hh).2, Vfs.withFile_self]
  rw [hsame] at hstep
  exact heldStep_bucketFree _ _ hstep

theorem heldStep_flush (h : Held g s) (fh : Nat) :
    HeldStep g s (g.step io s (.flush fh) (Op.exec cfg io (.flush fh) s).1
      (Op.exec cfg io (.flush fh) s).2) (Op.exec cfg io (.flush fh) s).2 := by
  simp only [Op.exec, bind_pure_run]
  rcases writer_eq_none_or s fh with hno | ⟨ino, w, hh⟩
  · rw [flushHandle_noWriter io hno]
    simp only [Images.step, Except.map, hno]
    exact h.refl
  · obtain ⟨hg, hfile⟩ := h.image hh
    rcases flushWriter_cases io w s with ⟨hclean, hrun⟩ | ⟨-, b, hb, hrun⟩ | ⟨-, e, t, hrun, ht⟩
    · have hsame : Function.update g fh (some ⟨s.fileOf w, false⟩) = g := by
        rw [← hclean, ← hg, Function.update_eq_self]
      rw [flushHandle_ok hh hrun, Vfs.withHandle_self hh]
      simp only [Images.step, Except.map, writer_of_handle hh, hg, hclean, Option.map_some,
        save_clean, hsame]
      exact h.refl
    · obtain rfl : s.fileOf w = b := Option.some.inj (hfile.symm.trans hb)
      rw [flushHandle_ok hh hrun]
      simp only [Images.step, Except.map, writer_of_handle hh, hg, Option.map_some,
        Vfs.bucket_withHandle, save_uploaded]
      exact h.saved hh
    · rw [flushHandle_error hh hrun]
      exact h.refl.maybePut ht

/-- The handle is closed and its image, which is saved, is gone with its file. -/
theorem Held.finish (h : Held g s) {fh ino : Nat} {w : Writer}
    (hh : s.handles[fh]? = some ⟨ino, .write w⟩) :
    HeldStep g s (Function.update g fh none) ((s.close fh).withFile w.path none) := by
  have hp := (h.writer fh ino w hh).1
  refine h.change (Or.inl ?_) (fun k hk => Function.update_of_ne hk _ _) (fun k hk => ?_)
    (fun k hk => s.handles_close_of_ne hk) le_rfl (h.le_nextFh hh) ?_ ?_
  · rw [writer_of_handle hh]
    simp
  · rw [hp]
    exact (s.close fh).cache_withFile_of_ne (fun heq => hk (CacheFile.h.inj heq)) _
  · intro jno v hv
    rw [show ((s.close fh).withFile w.path none).handles[fh]? = none from s.handles_close_self fh] at hv
    cases hv
  · intro c hc
    rw [Function.update_self] at hc
    cases hc

theorem heldStep_release (h : Held g s) (fh : Nat) :
    HeldStep g s (g.step io s (.release fh) (Op.exec cfg io (.release fh) s).1
      (Op.exec cfg io (.release fh) s).2) (Op.exec cfg io (.release fh) s).2 := by
  simp only [Op.exec, bind_pure_run]
  rcases writer_eq_none_or s fh with hno | ⟨ino, w, hh⟩
  · have hkeep : HeldStep g s g (Vfs.release io fh s).2 := by
      rcases release_noWriter io hno with hrun | hrun
      · rw [hrun]
        exact h.refl
      · rw [hrun]
        exact h.close fh
    cases hr : (Vfs.release io fh s).1 with
    | error e => exact hkeep
    | ok u =>
      simp only [Images.step, Except.map, hno]
      exact hkeep
  · obtain ⟨hg, hfile⟩ := h.image hh
    rcases flushWriter_cases io w (s.close fh) with
      ⟨hclean, hrun⟩ | ⟨-, b, hb, hrun⟩ | ⟨-, e, t, hrun, ht⟩
    · obtain ⟨t, ht, hup, -⟩ := release_ok hh hrun
      rw [ht]
      simp only [Images.step, Except.map, writer_of_handle hh, hg, hclean, Option.map_some, save_clean]
      exact heldStep_cacheFree.apply (h.finish hh) hup
    · obtain rfl : s.fileOf w = b := Option.some.inj (hfile.symm.trans hb)
      obtain ⟨t, ht, hup, -⟩ := release_ok hh hrun
      rw [ht]
      have hbucket : t.bucket = (s.put io w.dst.path (s.fileOf w)).bucket := by
        obtain ⟨a, d, z, rfl⟩ := hup
        rfl
      simp only [Images.step, Except.map, writer_of_handle hh, hg, Option.map_some, hbucket,
        save_uploaded]
      exact heldStep_cacheFree.apply (heldStep_bucketFree _ _ (h.finish hh)) hup
    · rw [release_error hh hrun]
      exact (h.close fh).maybePut ht

/-- A cache file of a handle that was not opened. -/
theorem Held.strayFile (h : Held g s) {k : Nat} (hk : s.nextFh ≤ k) (c : Option (List UInt8)) :
    HeldStep g s g ({ s with nextFh := k }.withFile (.h s.nextHandle) c) := by
  have hnew := h.fresh s.nextHandle (Nat.lt_succ_self _)
  have hcache : ∀ fh, fh ≠ s.nextHandle →
      ({ s with nextFh := k }.withFile (.h s.nextHandle) c).cache (.h fh) = s.cache (.h fh) :=
    fun fh hne => Vfs.cache_withFile_of_ne { s with nextFh := k }
      (fun heq => hne (CacheFile.h.inj heq)) c
  refine ⟨⟨fun fh ino w hw => ?_, fun fh b hb => ?_, fun fh hfh => ?_⟩,
    fun fh hfh _ => ⟨hfh, rfl⟩⟩
  · have hne : fh ≠ s.nextHandle := by
      rintro rfl
      exact absurd (hnew.2.symm.trans hw) (by simp)
    rw [hcache fh hne]
    exact h.writer fh ino w hw
  · have hne : fh ≠ s.nextHandle := by
      rintro rfl
      exact absurd (hnew.1.symm.trans hb) (by simp)
    rw [hcache fh hne]
    exact h.retained fh b hb
  · have hlt : k < fh := hfh
    exact h.fresh fh (by omega)

theorem heldStep_openFile (h : Held g s) (ino : Nat) (flags : BitVec 32) :
    HeldStep g s (g.step io s (.openFile ino flags) (Op.exec cfg io (.openFile ino flags) s).1
      (Op.exec cfg io (.openFile ino flags) s).2) (Op.exec cfg io (.openFile ino flags) s).2 := by
  have hlt : s.nextFh < s.nextHandle := Nat.lt_succ_self _
  simp only [Op.exec, bind_pure_run]
  have hspec := openFile_spec cfg io ino flags s
  generalize Vfs.openFile cfg io ino flags s = r at hspec
  cases hspec with
  | read src size hflags hs =>
    simp only [Images.step, Except.map, hflags, Bool.false_eq_true, if_false]
    refine heldStep_cacheFree.apply ?_ hs
    refine h.change (Or.inr hlt) (fun _ _ => rfl) (fun _ _ => rfl)
      (fun k hk => Vfs.handles_withHandle_of_ne _ hk _) hlt.le le_rfl ?_ ?_
    · intro jno v hv
      rw [Vfs.handles_withHandle_self] at hv
      simp at hv
    · intro b hb
      exact absurd ((h.fresh _ hlt).1.symm.trans hb) (by simp)
  | write size hflags hn hm hs =>
    simp only [Images.step, Except.map, hflags, if_true, ← hm]
    exact heldStep_cacheFree.apply (h.openWrite _ _ _ _) hs
  | error e k c hk hs => exact heldStep_cacheFree.apply (h.strayFile hk c) hs

theorem heldStep_create (h : Held g s) (parent : Nat) (name : Str) :
    HeldStep g s (g.step io s (.create parent name) (Op.exec cfg io (.create parent name) s).1
      (Op.exec cfg io (.create parent name) s).2) (Op.exec cfg io (.create parent name) s).2 := by
  rw [exec_create]
  have hspec := create_spec cfg io parent name s
  generalize Vfs.create cfg io parent name s = r at hspec
  cases hspec with
  | @ok _ p ino t a hp hdir hin hs =>
    have hopen := h.openWrite ino 0 (cfg.url (p.key ++ name)) ⟨[], true⟩
    exact heldStep_cacheFree.apply (heldStep_inodeFree _ t hopen) hs
  | error e => exact h.refl
  | noFile e hp hdir hin => exact heldStep_inodeFree _ _ (heldStep_tempFree.nextFh s h.refl)

theorem heldStep_setattr (h : Held g s) (ino : Nat) (size fh : Option Nat) :
    HeldStep g s (g.step io s (.setattr ino size fh) (Op.exec cfg io (.setattr ino size fh) s).1
      (Op.exec cfg io (.setattr ino size fh) s).2) (Op.exec cfg io (.setattr ino size fh) s).2 := by
  simp only [Op.exec, bind_pure_run]
  cases size with
  | none =>
    exact setattr_noHandle heldStep_cacheFree.attrCache heldStep_tempFree heldStep_bucketFree h.refl
      (Or.inl rfl)
  | some newSize =>
    cases hfind : s.findWriteHandle io ino fh with
    | none =>
      simp only [Images.step, hfind]
      exact setattr_noHandle heldStep_cacheFree.attrCache heldStep_tempFree heldStep_bucketFree h.refl
        (Or.inr hfind)
    | some r =>
      obtain ⟨k, w⟩ := r
      have hh := findWriteHandle_some hfind
      cases hio : io.setLen with
      | some e =>
        rw [setattr_error hfind hio]
        simp only [Images.step, hfind, hio]
        exact h.refl
      | none =>
        simp only [Images.step, hfind, hio, (h.image hh).1, Option.map_some]
        refine heldStep_cacheFree.apply ?_ (setattr_ok hfind hio newSize).1
        exact h.rewrite (m := Image.truncate newSize ⟨s.fileOf w, w.dirty⟩) hh rfl rfl

/-! ## Whole runs -/

/-- Every operation of the VFS keeps the agreement, whatever fails in it. -/
theorem exec_heldStep (h : Held g s) (o : Op) :
    HeldStep g s (g.step io s o (o.exec cfg io s).1 (o.exec cfg io s).2) (o.exec cfg io s).2 := by
  have hc := @heldStep_cacheFree g g s
  have hb := @heldStep_bucketFree g g s
  have hi := @heldStep_inodeFree g g s
  have ht := @heldStep_tempFree g g s
  cases o with
  | getattr ino => exact (keeps_getattr hc.attrCache ino).bind_pure.snd h.refl
  | lookup parent name =>
    exact (keeps_lookup hc.attrCache hi.internStable parent name).bind_pure.snd h.refl
  | readdir ino =>
    exact (keeps_readdir hc.stable hi.internStable ino).bind_pure.snd h.refl
  | read ino fh offset size =>
    exact (keeps_readHandle hc.attrCache ino fh offset size).bind_pure.snd h.refl
  | openFile ino flags => exact heldStep_openFile h ino flags
  | create parent name => exact heldStep_create h parent name
  | write fh offset data => exact heldStep_write h fh offset data
  | flush fh => exact heldStep_flush h fh
  | release fh => exact heldStep_release h fh
  | setattr ino size fh => exact heldStep_setattr h ino size fh
  | unlink parent name =>
    exact (keeps_unlink hc.stable hc.dirtySizes hb hi.forgetStable parent name).bind_pure.snd h.refl
  | mkdir parent name =>
    exact (keeps_mkdir hc.stable ht hb hi.internStable parent name).bind_pure.snd
      h.refl
  | rmdir parent name =>
    exact (keeps_rmdir hc.stable hb hi.forgetStable parent name).bind_pure.snd h.refl
  | rename parent name newparent newname =>
    exact (keeps_rename hc.stable hb hi heldStep_dstFree parent name newparent newname).bind_pure.snd h.refl

namespace Mounted

theorem new_held (rootKey : Str) (bucket : Str → Option Stored) :
    Held (new rootKey bucket).images (new rootKey bucket).vfs := by
  have hnone : ∀ k : Nat, (new rootKey bucket).vfs.handles[k]? = none := fun k =>
    Std.ExtTreeMap.getElem?_empty
  refine ⟨fun k ino w hk => ?_, fun k b hk => ?_, fun k hk => ⟨rfl, hnone k⟩⟩
  · rw [hnone k] at hk
    cases hk
  · cases hk

/-- While the mount runs the agreement holds, whatever is removed at its end. -/
theorem step_running_held {m m' : Mounted} {e : MountEvent}
    (h : m.running = true → Held m.images m.vfs) (hstep : step cfg m e = some m') :
    m'.running = true → Held m'.images m'.vfs := by
  intro hrun
  cases e with
  | op io o =>
    obtain ⟨hm, rfl⟩ := step_op hstep
    exact (exec_heldStep (h hm) o).held
  | unmount removed =>
    obtain ⟨-, rfl⟩ := step_unmount hstep
    cases hrun

theorem run_running_held {rootKey : Str} {bucket : Str → Option Stored} {es : List MountEvent}
    {m : Mounted} (h : run cfg (new rootKey bucket) es = some m) :
    m.running = true → Held m.images m.vfs :=
  Machine.run_invariant (P := fun m => m.running = true → Held m.images m.vfs)
    (fun _ _ _ hstep hm => step_running_held hm hstep) h fun _ => new_held rootKey bucket

end Mounted

end Rs5cmd
