import Rs5cmd.Lib.Machine
import Rs5cmd.Mount.Ledger

/-!
# The sizes of unflushed files

In every run of the VFS, an inode of the table has an entry in `dirty_sizes` while
one of its writers is open, and after a release that failed to upload: there the
entry is kept, with the cache file. Its size is that of the writer which was last
opened or modified. What follows when one of several writers of a file is released
is left open until the file is next opened or modified: that release drops the
entry of the others too.
-/

namespace Rs5cmd

open Cmd

/-! ## Inodes -/

/-- The inode is in the table or has not been given out. -/
def InodeTable.Live (t : InodeTable) (i : Nat) : Prop := (∃ n, t.get i = some n) ∨ t.next ≤ i

/-- An inode that is gone does not come back. -/
theorem TableStep.live {cfg : VfsConfig} {io : Io} {o : Op} {s : Vfs} {t t' : InodeTable}
    (hstep : TableStep cfg io o s t t') {i : Nat} (h : t'.Live i) : t.Live i := by
  have hforget : ∀ (t : InodeTable) (j : Nat), (t.forget j).Live i → t.Live i := by
    intro t j h
    rcases h with ⟨n, hn⟩ | hn
    · rw [InodeTable.get_forget] at hn
      split at hn
      · cases hn
      · exact Or.inl ⟨n, hn⟩
    · exact Or.inr ((InodeTable.next_forget t j) ▸ hn)
  have hdrop : ∀ (t : InodeTable) (key : Str), (t.dropKey key).Live i → t.Live i := by
    intro t key h
    unfold InodeTable.dropKey at h
    split at h
    · exact hforget t _ h
    · exact h
  have hrekey : ∀ (t : InodeTable) (j : Nat) (key : Str), (t.rekey j key).Live i → t.Live i := by
    intro t j key h
    rcases h with ⟨n, hn⟩ | hn
    · rw [InodeTable.get_rekey] at hn
      split at hn
      · obtain ⟨m, hm, -⟩ := Option.map_eq_some_iff.mp hn
        exact Or.inl ⟨m, hm⟩
      · exact Or.inl ⟨n, hn⟩
    · exact Or.inr ((InodeTable.next_rekey t j key) ▸ hn)
  cases hstep with
  | intern hp hdir hname =>
    by_cases hi : i < t.next
    · rcases h with ⟨n, hn⟩ | hn
      · rw [InodeTable.get_intern_of_lt t _ _ _ hi] at hn
        exact Or.inl ⟨n, hn⟩
      · exact Or.inr ((InodeTable.next_le_intern t _ _ _).trans hn)
    · exact Or.inr (Nat.le_of_not_lt hi)
  | forget kind hp hname hino => exact hforget _ _ h
  | renameFile ho hp hnp hstat hmove =>
    unfold InodeTable.fileRenamed at h
    split at h
    · exact hdrop _ _ h
    · exact hdrop _ _ (hrekey _ _ _ h)
  | renameDir ho hp hnp hstat hnot hmove =>
    rcases h with ⟨n, hn⟩ | hn
    · rw [InodeTable.get_rekeyPrefix] at hn
      obtain ⟨m, hm, -⟩ := Option.map_eq_some_iff.mp hn
      exact Or.inl ⟨m, hm⟩
    · rw [InodeTable.next_rekeyPrefix] at hn
      exact Or.inr hn

theorem exec_live (cfg : VfsConfig) (io : Io) (o : Op) {s : Vfs} (hwf : s.inodes.Wf) {i : Nat}
    (h : (o.exec cfg io s).2.inodes.Live i) : s.inodes.Live i :=
  exec_table_invariant (P := fun t => t.Live i → s.inodes.Live i)
    (fun _ _ hstep hback hlive => hback (hstep.live hlive)) hwf (fun hlive => hlive) h

/-! ## Operations that change no size -/

section Quiet

variable {cfg : VfsConfig} {io : Io} {s s' : Vfs}

theorem quiet_cacheStable : CacheStable (Quiet s) where
  attrCache _ _ h := ⟨h.dirtySizes, h.writers, h.nextFh⟩
  dirDrop _ _ _ h := ⟨h.dirtySizes, h.writers, h.nextFh⟩
  dirStore _ _ _ _ _ h := ⟨h.dirtySizes, h.writers, h.nextFh⟩

theorem quiet_bucketFree : BucketFree (Quiet s) := fun _ _ h => ⟨h.dirtySizes, h.writers, h.nextFh⟩

theorem quiet_inodeFree : InodeFree (Quiet s) := fun _ _ h => ⟨h.dirtySizes, h.writers, h.nextFh⟩

theorem quiet_tempFree : TempFree (Quiet s) where
  nextFh _ h := ⟨h.dirtySizes, h.writers, Nat.le_succ_of_le h.nextFh⟩
  temp _ _ _ _ h := ⟨h.dirtySizes, h.writers, h.nextFh⟩

/-- A writer that changes other than in its size. -/
theorem Quiet.withHandle {t : Vfs} (h : Quiet s t) {fh ino : Nat} {w w' : Writer}
    (hh : t.handles[fh]? = some ⟨ino, .write w⟩) (hsize : w'.size = w.size) :
    Quiet s (t.withHandle fh ⟨ino, .write w'⟩) where
  dirtySizes := h.dirtySizes
  writers := by
    intro k
    by_cases hk : k = fh
    · subst hk
      rw [writerSize_of_handle (t.handles_withHandle_self k _), hsize, ← h.writers k,
        writerSize_of_handle hh]
    · rw [writerSize_congr (t.handles_withHandle_of_ne hk _)]
      exact h.writers k
  nextFh := h.nextFh

theorem quiet_dstFree : DstFree (Quiet s) := by
  intro t fh ino w url hh h
  exact h.withHandle hh rfl

theorem Quiet.put {t : Vfs} (h : Quiet s t) (io : Io) (key : Str) (b : List UInt8) :
    Quiet s (t.put io key b) := ⟨h.dirtySizes, h.writers, h.nextFh⟩

theorem flushHandle_quiet (io : Io) (fh : Nat) (s : Vfs) : Quiet s (Vfs.flushHandle io fh s).2 := by
  have hself := Quiet.refl s
  rcases writer_eq_none_or s fh with hno | ⟨ino, w, hh⟩
  · rw [flushHandle_noWriter io hno]
    exact hself
  · rcases flushWriter_cases io w s with ⟨-, hrun⟩ | ⟨-, b, -, hrun⟩ | ⟨-, e, u, hrun, hu⟩
    · rw [flushHandle_ok hh hrun]
      exact hself.withHandle hh rfl
    · rw [flushHandle_ok hh hrun]
      exact (hself.put io w.dst.path b).withHandle hh rfl
    · rw [flushHandle_error hh hrun]
      rcases hu with rfl | ⟨b, -, rfl⟩
      · exact hself
      · exact hself.put io w.dst.path b

end Quiet

/-! ## What an operation does -/

/-- What an operation does to the writers and the sizes, and to the ledger. -/
inductive Ledger.Effect (l : Ledger) (s : Vfs) : Ledger → Vfs → Prop where
  | quiet {s' : Vfs} (h : Quiet s s') : Ledger.Effect l s l s'
  | touched {s' : Vfs} {fh ino size : Nat} (h : Touches s s' fh ino size)
      (hino : (∃ n, s'.inodes.get ino = some n) ∨ ∃ n, s.writerSize fh = some (ino, n)) :
      Ledger.Effect l s (l.touched s' fh) s'
  | released {s' : Vfs} {fh ino : Nat} (h : Closes s s' fh ino)
      (hdirty : s'.dirtySizes = s.dirtySizes.erase ino) :
      Ledger.Effect l s (l.released ino (s'.openOn ino)) s'
  | lost {s' : Vfs} {fh ino : Nat} (h : Closes s s' fh ino) (hdirty : s'.dirtySizes = s.dirtySizes) :
      Ledger.Effect l s (l.lost ino) s'
  | dropped {s' : Vfs} {ino : Nat} {n : Node} (hn : s.inodes.get ino = some n)
      (hwriters : ∀ fh, s'.writerSize fh = s.writerSize fh) (hnext : s'.nextFh = s.nextFh)
      (hdirty : s'.dirtySizes = s.dirtySizes.erase ino) (hinodes : s'.inodes = s.inodes.forget ino) :
      Ledger.Effect l s l s'

/-- Handles beyond the counter are not open for writing. -/
def FreshWriters (s : Vfs) : Prop := ∀ fh, s.nextFh < fh → s.writerSize fh = none

section Effects

variable {cfg : VfsConfig} {io : Io} {l : Ledger} {s s' : Vfs} {fh ino size : Nat}

/-! ### Opening and writing -/

/-- A handle that is opened for writing. -/
theorem touches_open (h : FreshWriters s) {w : Writer}
    (hself : s'.handles[s.nextHandle]? = some ⟨ino, .write w⟩)
    (hothers : ∀ k, k ≠ s.nextHandle → s'.handles[k]? = s.handles[k]?)
    (hnext : s'.nextFh = s.nextHandle) {t : Int}
    (hdirty : s'.dirtySizes = s.dirtySizes.insert ino (w.size, t)) :
    Touches s s' s.nextHandle ino w.size where
  dirtySizes := ⟨t, hdirty⟩
  writer := writerSize_of_handle hself
  others k hk := writerSize_congr (hothers k hk)
  before := by
    intro j n hj
    rw [h s.nextHandle (Nat.lt_succ_self _)] at hj
    cases hj
  nextFh := by
    rw [hnext]
    exact Nat.le_succ _
  known := hnext.ge

theorem openFile_effect (h : FreshWriters s) (ino : Nat) (flags : BitVec 32) :
    Ledger.Effect l s (l.step io s (.openFile ino flags) ((Op.openFile ino flags).exec cfg io s).1
      ((Op.openFile ino flags).exec cfg io s).2) ((Op.openFile ino flags).exec cfg io s).2 := by
  simp only [Op.exec, bind_pure_run]
  have hspec := openFile_spec cfg io ino flags s
  generalize Vfs.openFile cfg io ino flags s = r at hspec
  cases hspec with
  | @read s' src size hflags hs hc =>
    have hhandles : s'.handles = ({ s with nextFh := s.nextHandle }.withHandle s.nextHandle
        ⟨ino, .read src size⟩).handles := by
      obtain ⟨a, d, z, rfl⟩ := hs
      rfl
    have hnext : s.nextFh ≤ s'.nextFh := by
      obtain ⟨a, d, z, rfl⟩ := hs
      exact Nat.le_succ _
    -- a reader is no writer, and none was behind the new handle
    have hnone : s'.writerSize s.nextHandle = none := by
      unfold Vfs.writerSize
      rw [hhandles, Vfs.handles_withHandle_self]
    have hledger : l.touched s' s.nextHandle = l := by
      unfold Ledger.touched
      rw [hnone]
    show Ledger.Effect l s (l.touched s' s.nextHandle) s'
    rw [hledger]
    refine .quiet ⟨hc.dirtySizes, ?_, hnext⟩
    intro k
    by_cases hk : k = s.nextHandle
    · rw [hk, hnone, h s.nextHandle (Nat.lt_succ_self _)]
    · apply writerSize_congr
      rw [hhandles, Vfs.handles_withHandle_of_ne _ hk]
  | @write s' n m size hflags hn hm hs hc =>
    obtain ⟨a, d, z, rfl⟩ := hs
    refine .touched (touches_open h (Vfs.handles_withHandle_self _ _ _) ?_ rfl hc.dirtySizes)
      (Or.inl ⟨n, hn⟩)
    exact fun k hk => Vfs.handles_withHandle_of_ne _ hk _
  | error e k c hk hs hc =>
    obtain ⟨a, d, z, rfl⟩ := hs
    exact .quiet ⟨hc.dirtySizes, fun _ => rfl, hk⟩

theorem create_effect (hwf : s.inodes.Wf) (h : FreshWriters s) (parent : Nat) (name : Str) :
    Ledger.Effect l s (l.step io s (.create parent name) ((Op.create parent name).exec cfg io s).1
      ((Op.create parent name).exec cfg io s).2) ((Op.create parent name).exec cfg io s).2 := by
  rw [exec_create]
  have hspec := create_spec cfg io parent name s
  generalize Vfs.create cfg io parent name s = r at hspec
  cases hspec with
  | @ok s' p ino t a hp hdir hin hs now hc =>
    have hino : ∃ n, t.get ino = some n := by
      obtain ⟨n, hn, -⟩ := hwf.get_intern (p.key ++ name) .file parent
      rw [hin] at hn
      exact ⟨n, hn⟩
    obtain ⟨a, d, z, rfl⟩ := hs
    refine .touched (touches_open h (Vfs.handles_withHandle_self _ _ _) ?_ rfl hc.dirtySizes)
      (Or.inl hino)
    exact fun k hk => Vfs.handles_withHandle_of_ne _ hk _
  | error e => exact .quiet (Quiet.refl s)
  | noFile e hp hdir hin => exact .quiet ⟨rfl, fun _ => rfl, Nat.le_succ _⟩

/-- A writer that is modified. -/
theorem touches_modify (h : FreshWriters s) {w w' : Writer}
    (hh : s.handles[fh]? = some ⟨ino, .write w⟩)
    (hself : s'.handles[fh]? = some ⟨ino, .write w'⟩)
    (hothers : ∀ k, k ≠ fh → s'.handles[k]? = s.handles[k]?) (hnext : s'.nextFh = s.nextFh) {t : Int}
    (hdirty : s'.dirtySizes = s.dirtySizes.insert ino (w'.size, t)) :
    Touches s s' fh ino w'.size where
  dirtySizes := ⟨t, hdirty⟩
  writer := writerSize_of_handle hself
  others k hk := writerSize_congr (hothers k hk)
  before := by
    intro j n hj
    rw [writerSize_of_handle hh] at hj
    exact (Prod.mk.inj (Option.some.inj hj)).1.symm
  nextFh := hnext.ge
  known := by
    rw [hnext]
    by_contra hlt
    have hnone := h fh (Nat.lt_of_not_le hlt)
    rw [writerSize_of_handle hh] at hnone
    cases hnone

theorem write_effect (h : FreshWriters s) (fh offset : Nat) (data : List UInt8) :
    Ledger.Effect l s (l.step io s (.write fh offset data) ((Op.write fh offset data).exec cfg io s).1
      ((Op.write fh offset data).exec cfg io s).2) ((Op.write fh offset data).exec cfg io s).2 := by
  simp only [Op.exec, bind_pure_run]
  rcases writer_eq_none_or s fh with hno | ⟨ino, w, hh⟩
  · obtain ⟨e, he⟩ := writeHandle_noWriter io hno offset data
    rw [he]
    exact .quiet (Quiet.refl s)
  · cases hio : io.write with
    | none =>
      obtain ⟨u, hu, ⟨a, d, z, rfl⟩, hc⟩ := writeHandle_ok hh hio offset data
      rw [hu]
      refine .touched (touches_modify h hh (Vfs.handles_withHandle_self _ _ _) ?_ rfl hc.dirtySizes)
        (Or.inr ⟨_, writerSize_of_handle hh⟩)
      exact fun k hk => Vfs.handles_withHandle_of_ne _ hk _
    | some fault =>
      obtain ⟨e, he⟩ := writeHandle_error hh hio offset data
      rw [he]
      exact .quiet ⟨rfl, fun _ => rfl, le_rfl⟩

theorem setattr_effect (h : FreshWriters s) (ino : Nat) (size given : Option Nat) :
    Ledger.Effect l s (l.step io s (.setattr ino size given) ((Op.setattr ino size given).exec cfg io s).1
      ((Op.setattr ino size given).exec cfg io s).2) ((Op.setattr ino size given).exec cfg io s).2 := by
  have hquiet : ∀ {size : Option Nat}, (size = none ∨ s.findWriteHandle io ino given = none) →
      Quiet s (Vfs.setattr cfg io ino size given s).2 := fun hno =>
    setattr_noHandle quiet_cacheStable.attrCache quiet_tempFree quiet_bucketFree (Quiet.refl s) hno
  simp only [Op.exec, bind_pure_run]
  cases size with
  | none => exact .quiet (hquiet (Or.inl rfl))
  | some newSize =>
    simp only [Ledger.step]
    cases hfind : s.findWriteHandle io ino given with
    | none => exact .quiet (hquiet (Or.inr hfind))
    | some r =>
      obtain ⟨fh, w⟩ := r
      have hh := findWriteHandle_some hfind
      cases hio : io.setLen with
      | some e =>
        rw [setattr_error hfind hio]
        exact .quiet (Quiet.refl s)
      | none =>
        obtain ⟨⟨a, d, z, hs'⟩, hc⟩ := @setattr_ok cfg io s ino fh given w hfind hio newSize
        rw [hs'] at hc ⊢
        have hself := Vfs.handles_withHandle_self
          (s.withFile w.path (some (Bytes.setLen newSize (s.fileOf w)))) fh
          ⟨ino, .write (w.truncated newSize)⟩
        refine .touched (touches_modify h hh hself ?_ rfl hc.dirtySizes)
          (Or.inr ⟨_, writerSize_of_handle hh⟩)
        exact fun k hk => Vfs.handles_withHandle_of_ne _ hk _

/-! ### Releasing and removing -/

theorem closes_close {w : Writer} (hh : s.handles[fh]? = some ⟨ino, .write w⟩)
    (hhandles : s'.handles = (s.close fh).handles) (hnext : s'.nextFh = s.nextFh) :
    Closes s s' fh ino where
  writer := by
    unfold Vfs.writerSize
    rw [hhandles, Vfs.handles_close_self]
  others k hk := by
    apply writerSize_congr
    rw [hhandles, Vfs.handles_close_of_ne s hk]
  before := ⟨w.size, writerSize_of_handle hh⟩
  nextFh := hnext.ge

theorem release_effect (l : Ledger) (fh : Nat) :
    Ledger.Effect l s (l.step io s (.release fh) ((Op.release fh).exec cfg io s).1
      ((Op.release fh).exec cfg io s).2) ((Op.release fh).exec cfg io s).2 := by
  simp only [Op.exec, bind_pure_run]
  rcases writer_eq_none_or s fh with hno | ⟨ino, w, hh⟩
  · have hsize := writerSize_of_noWriter hno
    have hclosed : Quiet s (s.close fh) := by
      refine ⟨rfl, fun k => ?_, le_rfl⟩
      by_cases hk : k = fh
      · subst hk
        rw [hsize]
        unfold Vfs.writerSize
        rw [Vfs.handles_close_self]
      · exact writerSize_congr (Vfs.handles_close_of_ne s hk)
    simp only [Ledger.step, hsize]
    rcases release_noWriter io hno with hrun | hrun
    · rw [hrun]
      exact .quiet (Quiet.refl s)
    · rw [hrun]
      exact .quiet hclosed
  · have hsize := writerSize_of_handle hh
    have hok : ∀ {w' : Writer} {t : Vfs}, Vfs.flushWriter io w (s.close fh) = (.ok w', t) →
        t.handles = (s.close fh).handles → t.nextFh = s.nextFh → t.dirtySizes = s.dirtySizes →
        ∃ s', Vfs.release io fh s = (.ok (), s') ∧ Ledger.Effect l s (l.released ino (s'.openOn ino)) s' := by
      intro w' t hrun hhandles hnext hdirty
      obtain ⟨s', hs', hup, hc⟩ := release_ok hh hrun
      have hclosed : Closes s s' fh ino := by
        obtain ⟨a, d, z, rfl⟩ := hup
        exact closes_close hh hhandles hnext
      exact ⟨s', hs', .released hclosed (hdirty ▸ hc.dirtySizes)⟩
    simp only [Ledger.step, hsize]
    rcases flushWriter_cases io w (s.close fh) with ⟨-, hrun⟩ | ⟨-, b, -, hrun⟩ | ⟨-, e, u, hrun, hu⟩
    · obtain ⟨s', hs', heffect⟩ := hok hrun rfl rfl rfl
      rw [hs']
      exact heffect
    · obtain ⟨s', hs', heffect⟩ := hok hrun rfl rfl rfl
      rw [hs']
      exact heffect
    · rw [release_error hh hrun]
      rcases hu with rfl | ⟨b, -, rfl⟩
      · exact .lost (closes_close hh rfl rfl) rfl
      · exact .lost (closes_close hh rfl rfl) rfl

theorem unlink_effect (hwf : s.inodes.Wf) (l : Ledger) (parent : Nat) (name : Str) :
    Ledger.Effect l s l (Vfs.unlink cfg io parent name s).2 := by
  have hspec := unlink_spec cfg io parent name s
  generalize Vfs.unlink cfg io parent name s = r at hspec
  cases hspec with
  | error e b => exact .quiet ⟨rfl, fun _ => rfl, le_rfl⟩
  | unknown b => exact .quiet ⟨rfl, fun _ => rfl, le_rfl⟩
  | known b hp hino =>
    obtain ⟨n, hn, -⟩ := hwf.byKey _ _ hino
    exact .dropped hn (fun _ => rfl) rfl rfl rfl

/-! ### Every operation -/

theorem exec_effect (hwf : s.inodes.Wf) (h : FreshWriters s) (l : Ledger) (o : Op) :
    Ledger.Effect l s (l.step io s o (o.exec cfg io s).1 (o.exec cfg io s).2) (o.exec cfg io s).2 := by
  have hc := @quiet_cacheStable s
  have hb := @quiet_bucketFree s
  have hi := @quiet_inodeFree s
  have hkeep : ∀ {o : Op}, Keeps (Quiet s) (o.exec cfg io) → Ledger.Effect l s l (o.exec cfg io s).2 :=
    fun hq => .quiet (hq.snd (Quiet.refl s))
  cases o with
  | getattr ino => exact hkeep (keeps_getattr hc.attrCache ino).bind_pure
  | lookup parent name =>
    refine hkeep (Keeps.bind_pure ?_)
    exact keeps_lookup hc.attrCache hi.internStable parent name
  | readdir ino => exact hkeep (keeps_readdir hc hi.internStable ino).bind_pure
  | read ino fh offset size =>
    refine hkeep (Keeps.bind_pure ?_)
    exact keeps_readHandle hc.attrCache ino fh offset size
  | openFile ino flags => exact openFile_effect h ino flags
  | create parent name => exact create_effect hwf h parent name
  | write fh offset data => exact write_effect h fh offset data
  | flush fh =>
    refine .quiet ?_
    show Quiet s ((Vfs.flushHandle io fh >>= fun _ => pure Reply.done) s).2
    rw [bind_pure_run]
    exact flushHandle_quiet io fh s
  | release fh => exact release_effect l fh
  | setattr ino size fh => exact setattr_effect h ino size fh
  | unlink parent name =>
    show Ledger.Effect l s l ((Vfs.unlink cfg io parent name >>= fun _ => pure Reply.done) s).2
    rw [bind_pure_run]
    exact unlink_effect hwf l parent name
  | mkdir parent name =>
    refine hkeep (Keeps.bind_pure ?_)
    exact keeps_mkdir hc quiet_tempFree hb hi.internStable parent name
  | rmdir parent name =>
    refine hkeep (Keeps.bind_pure ?_)
    exact keeps_rmdir hc hb hi.forgetStable parent name
  | rename parent name newparent newname =>
    refine hkeep (Keeps.bind_pure ?_)
    exact keeps_rename hc hb hi quiet_dstFree parent name newparent newname

/-- No operation opens a handle beyond the counter. -/
theorem Ledger.Effect.freshWriters {l' : Ledger} (he : Ledger.Effect l s l' s') (h : FreshWriters s) :
    FreshWriters s' := by
  intro k hk
  cases he with
  | quiet hq => exact (hq.writers k).trans (h k (hq.nextFh.trans_lt hk))
  | touched ht =>
    have hne := Nat.ne_of_gt (ht.known.trans_lt hk)
    exact (ht.others k hne).trans (h k (ht.nextFh.trans_lt hk))
  | @released _ fh _ hc | @lost _ fh _ hc =>
    by_cases hkf : k = fh
    · rw [hkf]
      exact hc.writer
    · exact (hc.others k hkf).trans (h k (hc.nextFh.trans_lt hk))
  | dropped _ hwriters hnext => exact (hwriters k).trans (h k (hnext ▸ hk))

end Effects

/-! ## The invariant -/

/-- Handles beyond the counter are not open, and the ledger explains every inode
whose entry was not cleared early. -/
structure Booked (l : Ledger) (s : Vfs) : Prop where
  wf : s.inodes.Wf
  fresh : ∀ fh, s.nextFh < fh → s.writerSize fh = none
  accounted : ∀ i, s.inodes.Live i → l.early i = false → Accounted l s i

/-- An operation keeps the invariant, as far as it is about inodes that stay. -/
structure Books (l : Ledger) (s : Vfs) (l' : Ledger) (s' : Vfs) : Prop where
  fresh : ∀ fh, s'.nextFh < fh → s'.writerSize fh = none
  accounted : ∀ i, s'.inodes.Live i → s.inodes.Live i → l'.early i = false → Accounted l' s' i

section Booked

variable {cfg : VfsConfig} {io : Io} {l l' : Ledger} {s s' : Vfs}

/-- The ledger still explains every inode that stays. -/
theorem Ledger.Effect.accounted (he : Ledger.Effect l s l' s') (h : Booked l s) {i : Nat}
    (hlive' : s'.inodes.Live i) (hlive : s.inodes.Live i) (hearly : l'.early i = false) : Accounted l' s' i := by
  cases he with
  | quiet hq => exact hq.accounted (h.accounted i hlive hearly)
  | @touched _ fh ino size ht =>
    have hledger : l.touched s' fh = l.touch ino fh size := by
      unfold Ledger.touched
      rw [ht.writer]
    rw [hledger] at hearly ⊢
    refine ht.accounted fun hi => h.accounted i hlive ?_
    rw [← hearly]
    exact (Function.update_of_ne hi ..).symm
  | released hc hdirty =>
    refine hc.released hdirty (fun hi => h.accounted i hlive ?_) hearly
    rw [← hearly]
    exact (Function.update_of_ne hi ..).symm
  | lost hc hdirty => exact hc.lost hdirty (h.accounted i hlive hearly)
  | @dropped _ gone n hn hwriters hnext hdirty hinodes =>
    -- what is dropped is also forgotten
    have hne : gone ≠ i := by
      rintro rfl
      rw [hinodes] at hlive'
      rcases hlive' with ⟨m, hm⟩ | hm
      · have hnone := InodeTable.get_forget s.inodes gone gone
        rw [if_pos rfl] at hnone
        exact absurd (hnone.symm.trans hm) (by simp)
      · have hlt := h.wf.lt_next hn
        rw [InodeTable.next_forget] at hm
        omega
    have hget : s'.dirtySizes[i]? = s.dirtySizes[i]? := by
      rw [hdirty, Maps.getElem?_erase_of_ne hne]
    have hold := h.accounted i hlive hearly
    refine ⟨?_, fun size t ht => ?_⟩
    · unfold Vfs.OpenOn
      simp only [hget, hwriters]
      exact hold.entry
    · simp only [hwriters]
      exact hold.size size t (hget ▸ ht)

theorem exec_books (h : Booked l s) (o : Op) :
    Books l s (l.step io s o (o.exec cfg io s).1 (o.exec cfg io s).2) (o.exec cfg io s).2 where
  fresh := (exec_effect h.wf h.fresh l o).freshWriters h.fresh
  accounted _ hlive' hlive := (exec_effect h.wf h.fresh l o).accounted h hlive' hlive

theorem exec_booked (h : Booked l s) (o : Op) :
    Booked (l.step io s o (o.exec cfg io s).1 (o.exec cfg io s).2) (o.exec cfg io s).2 where
  wf := exec_wf cfg io o h.wf
  fresh := (exec_books h o).fresh
  accounted i hlive hearly := (exec_books h o).accounted i hlive (exec_live cfg io o h.wf hlive) hearly

end Booked

/-! ## Whole runs -/

/-- A VFS with its ledger. -/
structure Audited where
  vfs : Vfs
  ledger : Ledger := {}

namespace Audited

/-- The VFS and its ledger after an operation. -/
def step (cfg : VfsConfig) (a : Audited) (e : Io × Op) : Option Audited :=
  let (r, s') := e.2.exec cfg e.1 a.vfs
  some ⟨s', a.ledger.step e.1 a.vfs e.2 r s'⟩

theorem new_booked (rootKey : Str) (bucket : Str → Option Stored) :
    Booked {} (Vfs.new rootKey bucket) where
  wf := InodeTable.new_wf rootKey
  fresh fh _ := by simp [Vfs.writerSize, Vfs.new]
  accounted i _ _ := by
    refine ⟨?_, ?_⟩
    · simp [Vfs.OpenOn, Vfs.writerSize, Vfs.new]
    · simp [Vfs.new]

/-- **Dirty sizes are accounted for.** In every state that any operations lead to,
an inode of the table has an entry if and only if a handle is open for writing on it
or a release of one failed to upload and none has succeeded since, and the entry has
the size of the writer that was last opened or modified, unless since then a
release succeeded while another writer of the inode was open. -/
theorem dirty_sizes_accounted (cfg : VfsConfig) (rootKey : Str) (bucket : Str → Option Stored)
    (es : List (Io × Op)) (a : Audited)
    (hrun : Machine.run (step cfg) ⟨.new rootKey bucket, {}⟩ es = some a) (ino : Nat) (n : Node)
    (hn : a.vfs.inodes.get ino = some n) (hearly : a.ledger.early ino = false) :
    Accounted a.ledger a.vfs ino := by
  have hbooked : Booked a.ledger a.vfs := by
    refine Machine.run_invariant (P := fun b => Booked b.ledger b.vfs) ?_ hrun
      (new_booked rootKey bucket)
    intro b e b' hstep hb
    obtain rfl := Option.some.inj hstep
    exact exec_booked hb e.2
  exact hbooked.accounted ino (Or.inl ⟨n, hn⟩) hearly

/-- Two writers of one file; the first is released after the second has written,
and its upload fails. -/
def failedRelease : List (Io × Op) :=
  [({}, .create rootInode "f".toList), ({}, .openFile 2 Vfs.oTrunc), ({}, .write 2 0 [7]),
    ({ upload := some (.msg "timeout".toList, false) }, .release 1)]

theorem dirty_sizes_accounted_shared :
    ∃ a, Machine.run (step .sample) ⟨.new [] fun _ => none, {}⟩ failedRelease = some a ∧
      a.vfs.writerSize 2 = some (2, 1) ∧ a.ledger.unsaved 2 = true ∧
      Accounted a.ledger a.vfs 2 := by
  obtain ⟨a, hrun, hn, hearly, hsize, hunsaved⟩ : ∃ a,
      Machine.run (step .sample) ⟨.new [] fun _ => none, {}⟩ failedRelease = some a ∧
        a.vfs.inodes.get 2 = some ⟨"f".toList, .file, rootInode⟩ ∧ a.ledger.early 2 = false ∧
        a.vfs.writerSize 2 = some (2, 1) ∧ a.ledger.unsaved 2 = true :=
    Machine.exists_run_of_any (by decide +kernel)
  exact ⟨a, hrun, hsize, hunsaved,
    dirty_sizes_accounted .sample [] (fun _ => none) failedRelease a hrun 2 _ hn hearly⟩

/-- A new file whose only writer is released and fails to upload. -/
theorem failed_release_keeps_entry :
    ∃ a, Machine.run (step .sample) ⟨.new [] fun _ => none, {}⟩
        [({}, .create rootInode "f".toList),
          ({ upload := some (.msg "timeout".toList, false) }, .release 1)] = some a ∧
      (a.vfs.inodes.get 2).isSome = true ∧ a.vfs.dirtySizes[2]?.isSome = true ∧
      ¬ a.vfs.OpenOn 2 := by
  obtain ⟨a, hrun, hn, hentry, hopen⟩ : ∃ a,
      Machine.run (step .sample) ⟨.new [] fun _ => none, {}⟩
          [({}, .create rootInode "f".toList),
            ({ upload := some (.msg "timeout".toList, false) }, .release 1)] = some a ∧
        (a.vfs.inodes.get 2).isSome = true ∧ a.vfs.dirtySizes[2]?.isSome = true ∧
        a.vfs.openOn 2 = false :=
    Machine.exists_run_of_any (by decide +kernel)
  refine ⟨a, hrun, hn, hentry, fun h => ?_⟩
  rw [openOn_iff.mpr h] at hopen
  cases hopen

end Audited

end Rs5cmd
