import Rs5cmd.Mount.Held

/-!
# Unsaved data stays in its cache file

A handle's cache file holds what its user has written until an upload of that
succeeds, also after a release whose upload failed. Every operation of the VFS
keeps this; the end of `mount::run` does not, because it removes the cache
directory with the files that were kept.
-/

namespace Rs5cmd

variable {cfg : VfsConfig} {g : Images} {s : Vfs}

namespace Mounted

/-- Every unsaved image is in the cache file of its handle. -/
def Retains (m : Mounted) : Prop :=
  ∀ fh b, m.images fh = some ⟨b, true⟩ → m.vfs.cache (.h fh) = some b

/-- The cache directory is removed only when that takes no unsaved data with it. -/
def SavedBeforeRemoval (m : Mounted) : MountEvent → Prop
  | .op _ _ => True
  | .unmount removed => ∀ fh b, m.images fh = some ⟨b, true⟩ → removed (.h fh) = false

/-- Dropping a writer keeps the cache file of an unsaved image. -/
theorem droppedFile_unsaved (h : Held g s) {fh : Nat} {b : List UInt8}
    (hg : g fh = some ⟨b, true⟩) : s.droppedFile (.h fh) = false := by
  rw [Vfs.droppedFile, List.any_eq_false]
  intro e he
  have hh : s.handles[e.1]? = some e.2 := Std.ExtTreeMap.mem_toList_iff_getElem?_eq_some.mp he
  obtain ⟨k, ⟨ino, kind⟩⟩ := e
  cases kind with
  | read src size => simp
  | write w =>
    obtain ⟨hp, c, hgc, -⟩ := h.writer k ino w hh
    intro hdrop
    obtain ⟨hpath, hclean⟩ : w.path = .h fh ∧ w.dirty = false := by simpa using hdrop
    obtain rfl : k = fh := CacheFile.h.inj (hp.symm.trans hpath)
    rw [hg, hclean] at hgc
    simp at hgc

theorem cache_unmounted {removed : CacheFile → Bool} (h : Held g s) {fh : Nat} {b : List UInt8}
    (hg : g fh = some ⟨b, true⟩) :
    (s.unmounted removed).cache (.h fh) = if removed (.h fh) then none else some b := by
  show (if s.droppedFile (.h fh) || removed (.h fh) then none else s.cache (.h fh)) = _
  rw [droppedFile_unsaved h hg, Bool.false_or, h.retained fh b hg]

/-- A step that does not remove unsaved data keeps the agreement. -/
theorem step_held {m m' : Mounted} {e : MountEvent} (h : Held m.images m.vfs)
    (hC : m.SavedBeforeRemoval e) (hstep : step cfg m e = some m') : Held m'.images m'.vfs := by
  cases e with
  | op io o =>
    obtain ⟨-, rfl⟩ := step_op hstep
    exact (exec_heldStep h o).held
  | unmount removed =>
    obtain ⟨-, rfl⟩ := step_unmount hstep
    have hnone : ∀ k : Nat, (m.vfs.unmounted removed).handles[k]? = none := fun k =>
      Std.ExtTreeMap.getElem?_empty
    refine ⟨fun k ino w hk => ?_, fun k b hk => ?_, fun k hk => ⟨(h.fresh k hk).1, hnone k⟩⟩
    · rw [hnone k] at hk
      cases hk
    · rw [cache_unmounted h hk, hC k b hk]
      rfl

/-- The image of a handle that is closed does not change any more. -/
theorem step_closed {m m' : Mounted} {e : MountEvent} {fh : Nat} {img : Image}
    (h : m.running = true → Held m.images m.vfs) (hstep : step cfg m e = some m')
    (hw : m.vfs.writer fh = none) (hg : m.images fh = some img) :
    m'.vfs.writer fh = none ∧ m'.images fh = some img := by
  cases e with
  | op io o =>
    obtain ⟨hrun, rfl⟩ := step_op hstep
    have hheld := h hrun
    have hle : fh ≤ m.vfs.nextFh := by
      by_contra hlt
      exact absurd ((hheld.fresh fh (by omega)).1.symm.trans hg) (by simp)
    obtain ⟨hw', hg'⟩ := (exec_heldStep hheld o).closed fh hw hle
    exact ⟨hw', hg'.trans hg⟩
  | unmount removed =>
    obtain ⟨-, rfl⟩ := step_unmount hstep
    refine ⟨?_, hg⟩
    have hnone : (m.vfs.unmounted removed).handles[fh]? = none := Std.ExtTreeMap.getElem?_empty
    simp only [Vfs.writer, hnone]

/-- **Retention of unsaved data.** In a run of a mount every unsaved image is in
its cache file in every state exactly when the end of `mount::run` removes none of
them; and the image of a handle that is closed, by a failed release say, stays what
it was for the rest of the run. -/
theorem unsaved_data_retained_iff (cfg : VfsConfig) (rootKey : Str) (bucket : Str → Option Stored)
    {es : List MountEvent} {t : Mounted} (h : run cfg (new rootKey bucket) es = some t) :
    (Machine.Always (step cfg) Retains (new rootKey bucket) es ↔
      Machine.Along (step cfg) SavedBeforeRemoval (new rootKey bucket) es) ∧
    ∀ (pre post : List MountEvent) (m : Mounted) (fh : Nat) (img : Image), es = pre ++ post →
      run cfg (new rootKey bucket) pre = some m → m.vfs.writer fh = none →
      m.images fh = some img → t.images fh = some img := by
  have hnew := new_held rootKey bucket
  refine ⟨?_, ?_⟩
  · refine Machine.always_iff_along (I := fun m => Held m.images m.vfs) (fun m hm => hm.retained)
      (fun m e m' hm hC hstep => step_held hm hC hstep) ?_ h hnew
    intro m e m' hm hstep hret
    cases e with
    | op io o => exact trivial
    | unmount removed =>
      intro fh b hg
      obtain ⟨-, rfl⟩ := step_unmount hstep
      have hfile : (m.vfs.unmounted removed).cache (.h fh) = some b := hret fh b hg
      rw [cache_unmounted hm hg] at hfile
      by_contra hrem
      rw [Bool.not_eq_false] at hrem
      rw [hrem] at hfile
      cases hfile
  · rintro pre post m fh img rfl hpre hw hg
    have hheld := run_running_held hpre
    obtain ⟨u, hu, hpost⟩ := Machine.run_append_eq_some.mp h
    obtain rfl : u = m := Option.some.inj (hu.symm.trans hpre)
    have hend := Machine.run_invariant
      (P := fun m => (m.running = true → Held m.images m.vfs) ∧
        m.vfs.writer fh = none ∧ m.images fh = some img)
      (fun _ _ _ hstep hm => ⟨step_running_held hm.1 hstep, step_closed hm.1 hstep hm.2.1 hm.2.2⟩)
      hpost ⟨hheld, hw, hg⟩
    exact hend.2.2

/-- Two bytes are written to a new file, and the upload at its release fails. -/
def failedRelease : List MountEvent :=
  [.op {} (.create rootInode "a".toList), .op {} (.write 1 0 [1, 2]),
    .op { upload := some (.msg "timeout".toList, false) } (.release 1)]

/-- While the mount runs the cache file is there. -/
theorem failed_release_retained :
    ∃ t, run .sample (new [] fun _ => none) failedRelease = some t ∧
      t.images 1 = some ⟨[1, 2], true⟩ ∧
      Machine.Always (step .sample) Retains (new [] fun _ => none) failedRelease := by
  obtain ⟨t, ht, himage⟩ : ∃ t, run .sample (new [] fun _ => none) failedRelease = some t ∧
      t.images 1 = some ⟨[1, 2], true⟩ := Machine.exists_run_of_any (by decide +kernel)
  refine ⟨t, ht, himage, (unsaved_data_retained_iff .sample [] (fun _ => none) ht).1.mpr ?_⟩
  exact ⟨trivial, fun _ _ => ⟨trivial, fun _ _ => ⟨trivial, fun _ _ => trivial⟩⟩⟩

/-- The end of the mount removes the only copy of the data. -/
theorem retained_file_removed :
    ∃ t, run .sample (new [] fun _ => none) (failedRelease ++ [.unmount fun _ => true]) = some t ∧
      t.images 1 = some ⟨[1, 2], true⟩ ∧ t.vfs.cache (.h 1) = none ∧
      t.vfs.bucket "a".toList = none ∧ ¬ t.Retains := by
  obtain ⟨t, ht, himage, hcache, hbucket⟩ :
      ∃ t, run .sample (new [] fun _ => none) (failedRelease ++ [.unmount fun _ => true]) = some t ∧
        t.images 1 = some ⟨[1, 2], true⟩ ∧ t.vfs.cache (.h 1) = none ∧
        t.vfs.bucket "a".toList = none := Machine.exists_run_of_any (by decide +kernel)
  refine ⟨t, ht, himage, hcache, hbucket, fun hret => ?_⟩
  exact absurd (hcache.symm.trans (hret 1 [1, 2] himage)) (by simp)

end Mounted

end Rs5cmd
