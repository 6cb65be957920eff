import Rs5cmd.Mount.HandleSpec

/-!
# A removed file and its open writers

`unlink` deletes the object and forgets the inode, but the writers that are open
on the file keep their destination. The key stays absent, whatever is done with
open handles, exactly when no writer uploads to it.
-/

namespace Rs5cmd

open Cmd

variable {cfg : VfsConfig} {io : Io} {s t : Vfs} {key : Str}

/-! ## What `unlink` does -/

theorem delete_ok {u : Url} {fault : RequestFault} (h : Vfs.delete fault u s = (.ok (), t)) :
    t = { s with bucket := Function.update s.bucket u.path none } := by
  rcases fault with _ | ⟨e, _ | _⟩
  · exact (Prod.mk.inj h).2.symm
  · cases h
  · cases h

/-- An `unlink` that returns has deleted the object; the handles are untouched. -/
theorem unlink_ok {parent : Nat} {name : Str} {p : Node} (hp : s.inodes.get parent = some p)
    (h : Vfs.unlink cfg io parent name s = (.ok (), t)) :
    t.bucket (p.key ++ name) = none ∧ t.handles = s.handles := by
  rw [show Vfs.unlink cfg io parent name s = _ from bind_ok (node_ok hp)] at h
  simp only [cfg.objUrl_eq, ofExcept_ok_bind] at h
  cases hdel : Vfs.delete (io.delete 0) (cfg.url (p.key ++ name)) s with
  | mk r u =>
    cases r with
    | error e =>
      rw [bind_error hdel] at h
      cases h
    | ok x =>
      rw [bind_ok hdel] at h
      obtain rfl := delete_ok hdel
      -- what follows the request changes neither the bucket nor the handles
      let I : Vfs → Prop := fun v => v.bucket (p.key ++ name) = none ∧ v.handles = s.handles
      have hc : CacheFree I := ⟨fun _ _ h => h, fun _ _ h => h, fun _ _ h => h⟩
      have hkeep : Keeps I (do
          Vfs.dropFile (p.key ++ name)
          Vfs.invalidateDir parent : VfsM Unit) :=
        Keeps.bind (keeps_dropFile hc.attrCache hc.dirtySizes (fun _ _ h => h) _) fun _ =>
          keeps_invalidateDir hc.stable _
      have hend := hkeep.snd (s := { s with bucket := Function.update s.bucket (p.key ++ name) none })
        ⟨Function.update_self _ _ _, rfl⟩
      rw [show t = _ from (congrArg Prod.snd h).symm]
      exact hend

/-! ## Operations on open files -/

/-- The operations on open files: writes, flushes, releases and lookups. -/
def Op.onOpenFiles : Op → Bool
  | .write .. | .flush _ | .release _ | .getattr _ | .lookup .. => true
  | _ => false

def MountEvent.onOpenFiles : MountEvent → Bool
  | .op _ o => o.onOpenFiles
  | .unmount _ => false

/-- No writer uploads to the key. -/
def Vfs.NoWriterTo (s : Vfs) (key : Str) : Prop :=
  ∀ (fh ino : Nat) (w : Writer), s.handles[fh]? = some ⟨ino, .write w⟩ → w.dst.path ≠ key

/-- The key is absent and no open writer can bring it back. -/
structure Gone (key : Str) (s : Vfs) : Prop where
  absent : s.bucket key = none
  noWriter : s.NoWriterTo key

theorem gone_cacheFree : CacheFree (Gone key) where
  attrCache _ _ h := ⟨h.absent, h.noWriter⟩
  dirCache _ _ h := ⟨h.absent, h.noWriter⟩
  dirtySizes _ _ h := ⟨h.absent, h.noWriter⟩

theorem gone_writerStable : WriterStable (Gone key) where
  file _ _ _ h := ⟨h.absent, h.noWriter⟩
  close s fh h := by
    refine ⟨h.absent, fun k kno v hk => ?_⟩
    by_cases hkf : k = fh
    · subst hkf
      rw [Vfs.handles_close_self] at hk
      cases hk
    · rw [Vfs.handles_close_of_ne _ hkf] at hk
      exact h.noWriter k kno v hk
  writer s fh ino w w' hh hdst h := by
    refine ⟨h.absent, fun k kno v hk => ?_⟩
    by_cases hkf : k = fh
    · subst hkf
      rw [Vfs.handles_withHandle_self] at hk
      obtain ⟨-, rfl⟩ : ino = kno ∧ w' = v := by simpa using hk
      rw [hdst]
      exact h.noWriter k ino w hh
    · rw [Vfs.handles_withHandle_of_ne _ hkf] at hk
      exact h.noWriter k kno v hk
  stored s io fh ino w b hh h := by
    have hne : key ≠ w.dst.path := (h.noWriter fh ino w hh).symm
    exact ⟨(s.bucket_put_of_ne io hne b).trans h.absent, h.noWriter⟩

/-- No operation on open files brings the key back. -/
theorem Gone.exec (h : Gone key s) {o : Op} (ho : o.onOpenFiles = true) :
    Gone key (o.exec cfg io s).2 := by
  have hin : InternStable (Gone key) := fun _ _ _ _ h => ⟨h.absent, h.noWriter⟩
  cases o with
  | getattr ino => exact (keeps_getattr gone_cacheFree.attrCache ino).bind_pure.snd h
  | lookup parent name =>
    exact (keeps_lookup gone_cacheFree.attrCache hin parent name).bind_pure.snd h
  | write fh offset data =>
    exact (keeps_writeHandle gone_cacheFree.stable gone_cacheFree.dirtySizes gone_writerStable fh
      offset data).bind_pure.snd h
  | flush fh =>
    exact (keeps_flushHandle gone_writerStable fh).bind_pure.snd h
  | release fh =>
    exact (keeps_release gone_cacheFree.stable gone_cacheFree.dirtySizes gone_writerStable
      fh).bind_pure.snd h
  | _ => cases ho

/-! ## After an `unlink` -/

namespace Mounted

variable {m m' : Mounted} {parent : Nat} {name : Str} {p : Node}

/-- A run of operations on open files keeps an absent key absent. -/
theorem run_gone {es : List MountEvent} (hes : ∀ e ∈ es, e.onOpenFiles = true)
    (h : run cfg m es = some m') (hm : Gone key m.vfs) : Gone key m'.vfs := by
  induction es generalizing m with
  | nil =>
    obtain rfl := Option.some.inj h
    exact hm
  | cons e es ih =>
    obtain ⟨u, hu, hrun⟩ := Machine.run_cons_eq_some.mp h
    refine ih (fun e' he' => hes e' (List.mem_cons_of_mem e he')) hrun ?_
    have he := hes e List.mem_cons_self
    cases e with
    | op io o =>
      obtain ⟨-, rfl⟩ := step_op hu
      exact hm.exec he
    | unmount removed => cases he

/-- A write and a flush of an open writer store its object. -/
theorem write_flush_stores (cfg : VfsConfig) {fh ino : Nat} {w : Writer} (hrun : m.running = true)
    (hh : m.vfs.handles[fh]? = some ⟨ino, .write w⟩) :
    ∃ u, run cfg m [.op {} (.write fh 0 []), .op {} (.flush fh)] = some u ∧
      u.vfs.bucket w.dst.path ≠ none := by
  obtain ⟨s₁, hwrite, ⟨a, d, z, hs₁⟩, -⟩ := writeHandle_ok hh (show ({} : Io).write = none from rfl) 0 []
  -- the writer is dirty now, and its file is there
  have hh₁ : s₁.handles[fh]? = some ⟨ino, .write (w.wrote 0 [])⟩ := by
    rw [hs₁]
    exact Vfs.handles_withHandle_self _ fh _
  have hfile : s₁.cache w.path = some (Bytes.writeAt 0 [] (m.vfs.fileOf w)) := by
    rw [hs₁]
    exact m.vfs.cache_withFile_self w.path _
  have hflush := flushHandle_ok hh₁ (flushWriter_dirty rfl hfile
    (show ({} : Io).syncAll = none from rfl) rfl)
  have h₁ : (m.exec cfg {} (.write fh 0 [])).vfs = s₁ := by
    show ((Op.exec cfg {} (.write fh 0 [])) m.vfs).2 = s₁
    simp only [Op.exec, bind_pure_run, hwrite]
  refine ⟨(m.exec cfg {} (.write fh 0 [])).exec cfg {} (.flush fh), ?_, ?_⟩
  · refine Machine.run_cons_eq_some.mpr ⟨_, step_op_of_running hrun _, ?_⟩
    have hrun₁ : (m.exec cfg {} (.write fh 0 [])).running = true := hrun
    exact Machine.run_cons_eq_some.mpr ⟨_, step_op_of_running hrun₁ _, rfl⟩
  · show (Op.exec cfg {} (.flush fh) (m.exec cfg {} (.write fh 0 [])).vfs).2.bucket w.dst.path ≠ none
    simp only [h₁, Op.exec, bind_pure_run, hflush, Vfs.bucket_withHandle]
    rw [show (w.wrote 0 []).dst.path = w.dst.path from rfl, Vfs.bucket_put_self]
    simp

/-- **A removed file stays removed** under writes, flushes, releases, `getattr` and
`lookup` exactly when no writer was open that uploads to it. -/
theorem unlink_final_iff (hrun : m.running = true) (hp : m.vfs.inodes.get parent = some p)
    (h : Vfs.unlink cfg io parent name m.vfs = (.ok (), t)) :
    (∀ es m', (∀ e ∈ es, e.onOpenFiles = true) → run cfg { m with vfs := t } es = some m' →
      m'.vfs.bucket (p.key ++ name) = none) ↔ m.vfs.NoWriterTo (p.key ++ name) := by
  obtain ⟨habsent, hhandles⟩ := unlink_ok hp h
  constructor
  · intro hall fh ino w hh heq
    rw [← hhandles] at hh
    obtain ⟨u, hu, hstored⟩ := write_flush_stores cfg (m := { m with vfs := t }) hrun hh
    rw [heq] at hstored
    exact hstored (hall _ u (by simp [MountEvent.onOpenFiles, Op.onOpenFiles]) hu)
  · intro hno es m' hes hes'
    have hgone : Gone (p.key ++ name) t := ⟨habsent, by rw [Vfs.NoWriterTo, hhandles]; exact hno⟩
    exact (run_gone hes hes' hgone).absent

/-- A mount of a bucket with the one object `a`. -/
def oneObject : Mounted :=
  new [] fun k => if k = "a".toList then some ⟨[1], none⟩ else none

/-- The object is opened for reading, and a second file is written. -/
def readerAndWriter : List MountEvent :=
  [.op {} (.lookup rootInode "a".toList), .op {} (.openFile 2 0),
    .op {} (.create rootInode "b".toList), .op {} (.write 2 0 [7])]

/-- Whatever becomes of the two handles, the object that is unlinked stays away. -/
theorem unlink_final_with_handles :
    ∃ m, run .sample oneObject readerAndWriter = some m ∧ m.vfs.handles.size = 2 ∧
      (Vfs.unlink .sample {} rootInode "a".toList m.vfs).1 = .ok () ∧
      ∀ es m', (∀ e ∈ es, MountEvent.onOpenFiles e = true) →
        run .sample { m with vfs := (Vfs.unlink .sample {} rootInode "a".toList m.vfs).2 } es =
          some m' →
        m'.vfs.bucket "a".toList = none := by
  obtain ⟨m, hm, hsize, hrunning, hok, hroot, hwriters⟩ : ∃ m,
      run .sample oneObject readerAndWriter = some m ∧ m.vfs.handles.size = 2 ∧
        m.running = true ∧ (Vfs.unlink .sample {} rootInode "a".toList m.vfs).1 = .ok () ∧
        m.vfs.inodes.get rootInode = some ⟨[], .dir, rootInode⟩ ∧
        ∀ e ∈ m.vfs.handles.toList,
          (m.vfs.writer e.1).map (fun w => w.dst.path) ≠ some "a".toList :=
    Machine.exists_run_of_any (by decide +kernel)
  refine ⟨m, hm, hsize, hok, (unlink_final_iff hrunning hroot (Prod.ext hok rfl)).mpr ?_⟩
  intro fh ino w hh hpath
  refine hwriters _ (Std.ExtTreeMap.mem_toList_iff_getElem?_eq_some.mpr hh) ?_
  have hwriter : m.vfs.writer fh = some w := by simp [Vfs.writer, hh]
  rw [hwriter, Option.map_some, hpath]
  rfl

/-- A file is created and written. -/
def openWriter : List MountEvent :=
  [.op {} (.create rootInode "a".toList), .op {} (.write 1 0 [1])]

/-- The release of a writer whose file was removed stores the object again. -/
theorem release_undoes_unlink :
    ∃ m, run .sample (new [] fun _ => none) openWriter = some m ∧
      (Vfs.unlink .sample {} rootInode "a".toList m.vfs).1 = .ok () ∧
      (Vfs.unlink .sample {} rootInode "a".toList m.vfs).2.bucket "a".toList = none ∧
      ∃ m', run .sample { m with vfs := (Vfs.unlink .sample {} rootInode "a".toList m.vfs).2 }
        [.op {} (.release 1)] = some m' ∧ m'.vfs.bucket "a".toList = some ⟨[1], some 0⟩ := by
  obtain ⟨m, hm, hok, habsent, hend⟩ : ∃ m, run .sample (new [] fun _ => none) openWriter = some m ∧
      (Vfs.unlink .sample {} rootInode "a".toList m.vfs).1 = .ok () ∧
      (Vfs.unlink .sample {} rootInode "a".toList m.vfs).2.bucket "a".toList = none ∧
      ((run .sample { m with vfs := (Vfs.unlink .sample {} rootInode "a".toList m.vfs).2 }
        [.op {} (.release 1)]).any
          fun m' => decide (m'.vfs.bucket "a".toList = some ⟨[1], some 0⟩)) = true :=
    Machine.exists_run_of_any (by decide +kernel)
  exact ⟨m, hm, hok, habsent, Machine.exists_run_of_any hend⟩

end Mounted

end Rs5cmd
