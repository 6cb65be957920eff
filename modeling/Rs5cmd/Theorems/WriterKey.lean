import Rs5cmd.Mount.RenameSpec

/-!
# Writers and the keys of their files

The key of a file is stored in the inode table and in every writer that is open
on it. All operations keep the copies equal but `rename`: a file rename re-points
one writer of the file, a directory rename none.
-/

namespace Rs5cmd

open Cmd

variable {cfg : VfsConfig} {io : Io} {s t : Vfs}

/-! ## The invariant -/

/-- Every open writer whose inode is known uploads to the key of that inode. -/
def Vfs.Coherent (s : Vfs) : Prop :=
  ∀ (fh ino : Nat) (w : Writer) (n : Node), s.handles[fh]? = some ⟨ino, .write w⟩ →
    s.inodes.get ino = some n → w.dst.path = n.key

/-- The invariant behind it: an inode that is forgotten does not come back. -/
structure KeyedWriters (s : Vfs) : Prop where
  coherent : s.Coherent
  table : s.inodes.Wf
  known : ∀ (fh ino : Nat) (w : Writer), s.handles[fh]? = some ⟨ino, .write w⟩ →
    ino < s.inodes.next

theorem keyed_cacheFree : CacheFree KeyedWriters where
  attrCache _ _ h := ⟨h.coherent, h.table, h.known⟩
  dirCache _ _ h := ⟨h.coherent, h.table, h.known⟩
  dirtySizes _ _ h := ⟨h.coherent, h.table, h.known⟩

theorem keyed_bucketFree : BucketFree KeyedWriters := fun _ _ h => ⟨h.coherent, h.table, h.known⟩

theorem keyed_tempFree : TempFree KeyedWriters where
  nextFh _ h := ⟨h.coherent, h.table, h.known⟩
  temp _ _ _ _ h := ⟨h.coherent, h.table, h.known⟩

theorem keyed_internStable : InternStable KeyedWriters := by
  intro s key kind parent h
  refine ⟨fun fh ino w n hh hn => ?_, h.table.intern key kind parent, fun fh ino w hh => ?_⟩
  · have hn' : (s.inodes.intern key kind parent).2.get ino = some n := hn
    rw [InodeTable.get_intern_of_lt _ _ _ _ (h.known fh ino w hh)] at hn'
    exact h.coherent fh ino w n hh hn'
  · exact Nat.lt_of_lt_of_le (h.known fh ino w hh) (InodeTable.next_le_intern _ _ _ _)

theorem keyed_forgetStable : ForgetStable KeyedWriters := by
  intro s i h
  refine ⟨fun fh ino w n hh hn => ?_, h.table.forget i, fun fh ino w hh => ?_⟩
  · have hn' : (s.inodes.forget i).get ino = some n := hn
    rw [InodeTable.get_forget] at hn'
    split at hn'
    · cases hn'
    · exact h.coherent fh ino w n hh hn'
  · show ino < (s.inodes.forget i).next
    rw [InodeTable.next_forget]
    exact h.known fh ino w hh

/-- A handle of a known inode that uploads to its key. -/
theorem KeyedWriters.withHandle (h : KeyedWriters s) {fh ino : Nat} {w : Writer} (hino : ino < s.inodes.next)
    (hdst : ∀ n, s.inodes.get ino = some n → w.dst.path = n.key) :
    KeyedWriters (s.withHandle fh ⟨ino, .write w⟩) := by
  refine ⟨fun k kno v n hk hn => ?_, h.table, fun k kno v hk => ?_⟩
  · by_cases hkf : k = fh
    · subst hkf
      rw [Vfs.handles_withHandle_self] at hk
      obtain ⟨rfl, rfl⟩ : ino = kno ∧ w = v := by simpa using hk
      exact hdst n hn
    · rw [Vfs.handles_withHandle_of_ne _ hkf] at hk
      exact h.coherent k kno v n hk hn
  · by_cases hkf : k = fh
    · subst hkf
      rw [Vfs.handles_withHandle_self] at hk
      obtain ⟨rfl, rfl⟩ : ino = kno ∧ w = v := by simpa using hk
      exact hino
    · rw [Vfs.handles_withHandle_of_ne _ hkf] at hk
      exact h.known k kno v hk

/-- Handles that were there before, or read. -/
theorem KeyedWriters.mono (h : KeyedWriters s) (hin : t.inodes = s.inodes)
    (hsub : ∀ (k kno : Nat) (v : Writer), t.handles[k]? = some ⟨kno, .write v⟩ →
      s.handles[k]? = some ⟨kno, .write v⟩) : KeyedWriters t := by
  refine ⟨fun k kno v n hk hn => ?_, by rw [hin]; exact h.table, fun k kno v hk => ?_⟩
  · rw [hin] at hn
    exact h.coherent k kno v n (hsub k kno v hk) hn
  · rw [hin]
    exact h.known k kno v (hsub k kno v hk)

theorem keyed_writerStable : WriterStable KeyedWriters where
  file _ _ _ h := ⟨h.coherent, h.table, h.known⟩
  close s fh h := by
    refine h.mono rfl fun k kno v hk => ?_
    by_cases hkf : k = fh
    · subst hkf
      rw [Vfs.handles_close_self] at hk
      cases hk
    · rw [Vfs.handles_close_of_ne _ hkf] at hk
      exact hk
  writer s fh ino w w' hh hdst h := by
    refine h.withHandle (h.known fh ino w hh) fun n hn => ?_
    rw [hdst]
    exact h.coherent fh ino w n hh hn
  stored _ _ _ _ _ _ _ h := keyed_bucketFree _ _ h

/-! ## Opening and creating -/

theorem KeyedWriters.openFile (h : KeyedWriters s) (ino : Nat) (flags : BitVec 32) :
    KeyedWriters (Vfs.openFile cfg io ino flags s).2 := by
  have hspec := openFile_spec cfg io ino flags s
  generalize Vfs.openFile cfg io ino flags s = r at hspec
  cases hspec with
  | read src size hflags hs =>
    refine keyed_cacheFree.apply ?_ hs
    refine h.mono rfl fun k kno v hk => ?_
    by_cases hkf : k = s.nextHandle
    · subst hkf
      rw [Vfs.handles_withHandle_self] at hk
      simp at hk
    · rw [Vfs.handles_withHandle_of_ne _ hkf] at hk
      exact hk
  | @write s' n m size hflags hn hm hs =>
    have hfile : KeyedWriters ({ s with nextFh := s.nextHandle }.withFile (.h s.nextHandle)
      (some m.bytes)) := ⟨h.coherent, h.table, h.known⟩
    refine keyed_cacheFree.apply (hfile.withHandle (h.table.lt_next hn) fun n' hn' => ?_) hs
    obtain rfl : n = n' := Option.some.inj (hn.symm.trans hn')
    rfl
  | error e k c hk hs =>
    refine keyed_cacheFree.apply ?_ hs
    exact ⟨h.coherent, h.table, h.known⟩

theorem KeyedWriters.create (h : KeyedWriters s) (parent : Nat) (name : Str) :
    KeyedWriters (Vfs.create cfg io parent name s).2 := by
  have hspec := create_spec cfg io parent name s
  generalize Vfs.create cfg io parent name s = r at hspec
  cases hspec with
  | @ok s' p ino t a hp hdir hin hs =>
    have hintern := keyed_internStable s (p.key ++ name) .file parent h
    obtain ⟨n, hn, hkey⟩ := h.table.get_intern (p.key ++ name) .file parent
    simp only [hin] at hintern hn
    have hfile : KeyedWriters ({ s with inodes := t, nextFh := s.nextHandle }.withFile (.h s.nextHandle)
      (some [])) := ⟨hintern.coherent, hintern.table, hintern.known⟩
    refine keyed_cacheFree.apply (hfile.withHandle (hintern.table.lt_next hn) fun n' hn' => ?_) hs
    obtain rfl : n = n' := Option.some.inj (hn.symm.trans hn')
    exact hkey.symm
  | error e => exact h
  | @noFile p ino t e hp hdir hin =>
    have hintern := keyed_internStable s (p.key ++ name) .file parent h
    simp only [hin] at hintern
    exact ⟨hintern.coherent, hintern.table, hintern.known⟩

/-! ## Renaming a file -/

theorem KeyedWriters.dropKey (h : KeyedWriters s) (key : Str) :
    KeyedWriters { s with inodes := s.inodes.dropKey key } := by
  unfold InodeTable.dropKey
  split
  · exact keyed_forgetStable s _ h
  · exact h

/-- The writers that are open on an inode. -/
def Vfs.WritesTo (s : Vfs) (fh ino : Nat) : Prop := ∃ w, s.handles[fh]? = some ⟨ino, .write w⟩

/-- A file with at most one writer is renamed with it. -/
theorem KeyedWriters.fileRekeyed (h : KeyedWriters s) {oldFile newFile : Str}
    (hone : oldFile ≠ newFile → ∀ ino fh₁ fh₂, s.inodes.lookupKey oldFile = some ino →
      s.WritesTo fh₁ ino → s.WritesTo fh₂ ino → fh₁ = fh₂) :
    KeyedWriters (s.fileRekeyed cfg io oldFile newFile) := by
  have hdrop := h.dropKey newFile
  unfold Vfs.fileRekeyed
  cases hino : (s.inodes.dropKey newFile).lookupKey oldFile with
  | none => exact hdrop
  | some ino =>
    rw [lookupKey_dropKey h.table] at hino
    split at hino
    · cases hino
    rename_i hne
    dsimp only
    have hsame : ∀ tab, Vfs.findWriteHandle { s with inodes := tab } io ino none =
        s.findWriteHandle io ino none := fun tab => rfl
    refine ⟨fun k kno v n hk hn => ?_, ?_, fun k kno v hk => ?_⟩
    · rw [inodes_repointed] at hn
      have hn' : ((s.inodes.dropKey newFile).rekey ino newFile).get kno = some n := hn
      rw [InodeTable.get_rekey] at hn'
      rcases handles_repointed hk with ⟨w, -, rfl, rfl⟩ | ⟨hother, hk'⟩
      · rw [if_pos rfl] at hn'
        obtain ⟨n', -, rfl⟩ := Option.map_eq_some_iff.mp hn'
        rfl
      · have hkno : ino ≠ kno := by
          rintro rfl
          -- the file has a writer, so one was found, and it is the only one
          rw [hsame] at hother
          cases hfind : s.findWriteHandle io ino none with
          | none => exact findWriteHandle_none hfind k v hk'
          | some r =>
            have hr : s.WritesTo r.1 ino := ⟨r.2, findWriteHandle_some hfind⟩
            obtain rfl := hone (Ne.symm hne) ino k r.1 hino ⟨v, hk'⟩ hr
            exact hother r.2 hfind
        rw [if_neg hkno] at hn'
        exact hdrop.coherent k kno v n hk' hn'
    · rw [inodes_repointed]
      exact hdrop.table.rekey ino newFile
    · rw [inodes_repointed]
      show kno < ((s.inodes.dropKey newFile).rekey ino newFile).next
      rw [InodeTable.next_rekey]
      rcases handles_repointed hk with ⟨w, hfind, rfl, rfl⟩ | ⟨-, hk'⟩
      · have hh : s.handles[k]? = some ⟨kno, .write w⟩ :=
          findWriteHandle_some ((hsame _).symm.trans hfind)
        exact hdrop.known k kno w hh
      · exact hdrop.known k kno v hk'

theorem handles_repointed_of_ne (cfg : VfsConfig) (key : Str) {ino k : Nat}
    (h : ∀ w, s.findWriteHandle io ino none ≠ some (k, w)) :
    (s.repointed cfg io ino key).handles[k]? = s.handles[k]? := by
  unfold Vfs.repointed
  cases hfind : s.findWriteHandle io ino none with
  | none => rfl
  | some r =>
    refine s.handles_withHandle_of_ne ?_ _
    rintro rfl
    exact h r.2 hfind

/-- A second writer of a renamed file is left behind. -/
theorem KeyedWriters.writers_eq_of_fileRekeyed (h : KeyedWriters s) {oldFile newFile : Str}
    (hcoh : (s.fileRekeyed cfg io oldFile newFile).Coherent) (hne : oldFile ≠ newFile)
    {ino fh₁ fh₂ : Nat} (hino : s.inodes.lookupKey oldFile = some ino) (h₁ : s.WritesTo fh₁ ino)
    (h₂ : s.WritesTo fh₂ ino) : fh₁ = fh₂ := by
  obtain ⟨n, hn, hold, hkey⟩ := get_dropKey h.table hne hino
  have hlook : (s.inodes.dropKey newFile).lookupKey oldFile = some ino := by
    rw [lookupKey_dropKey h.table, if_neg (Ne.symm hne), hino]
  rw [Vfs.fileRekeyed, hlook] at hcoh
  dsimp only at hcoh
  -- a writer that is not found keeps the old key
  have hfound : ∀ k, s.WritesTo k ino → ∃ w, s.findWriteHandle io ino none = some (k, w) := by
    intro k hk
    by_contra hno
    obtain ⟨v, hv⟩ := hk
    have hsame := handles_repointed_of_ne cfg newFile
      (s := { s with inodes := (s.inodes.dropKey newFile).rekey ino newFile })
      fun w heq => hno ⟨w, heq⟩
    have hpath := hcoh k ino v { n with key := newFile } (hsame.trans hv) (by
      rw [inodes_repointed]
      show ((s.inodes.dropKey newFile).rekey ino newFile).get ino = _
      rw [InodeTable.get_rekey, if_pos rfl, hn]
      rfl)
    exact hne ((hkey.symm.trans (h.coherent k ino v n hv hold).symm).trans hpath)
  obtain ⟨w₁, hw₁⟩ := hfound fh₁ h₁
  obtain ⟨w₂, hw₂⟩ := hfound fh₂ h₂
  exact (Prod.mk.inj (Option.some.inj (hw₁.symm.trans hw₂))).1

/-! ## Renaming a directory -/

/-- The writers of files under a key. -/
def Vfs.WritesUnder (s : Vfs) (oldPrefix : Str) : Prop :=
  ∃ fh ino n, s.WritesTo fh ino ∧ s.inodes.get ino = some n ∧ Str.startsWith oldPrefix n.key = true

/-- A directory without open writers is renamed. -/
theorem KeyedWriters.treeRekeyed (h : KeyedWriters s) {oldPrefix newPrefix : Str}
    (hnone : oldPrefix ≠ newPrefix → ¬ s.WritesUnder oldPrefix) :
    KeyedWriters (s.treeRekeyed io oldPrefix newPrefix) := by
  refine ⟨fun fh ino w n hh hn => ?_, h.table.rekeyPrefix _ _ _, fun fh ino w hh => ?_⟩
  · have hn' : (s.inodes.rekeyPrefix io.order oldPrefix newPrefix).2.get ino = some n := hn
    rw [InodeTable.get_rekeyPrefix] at hn'
    obtain ⟨n₀, hn₀, heq⟩ := Option.map_eq_some_iff.mp hn'
    have hkey : n.key = n₀.key := by
      by_cases hstarts : Str.startsWith oldPrefix n₀.key = true
      · by_cases hsame : oldPrefix = newPrefix
        · -- nothing changes
          subst hsame
          rw [if_pos hstarts] at heq
          obtain ⟨rest, hrest⟩ := of_decide_eq_true hstarts
          rw [← heq, ← hrest]
          simp
        · exact absurd ⟨fh, ino, n₀, ⟨w, hh⟩, hn₀, hstarts⟩ (hnone hsame)
      · rw [if_neg hstarts] at heq
        rw [heq]
    rw [hkey]
    exact h.coherent fh ino w n₀ hh hn₀
  · show ino < (s.inodes.rekeyPrefix io.order oldPrefix newPrefix).2.next
    rw [InodeTable.next_rekeyPrefix]
    exact h.known fh ino w hh

/-- A writer under a renamed directory is left behind. -/
theorem KeyedWriters.not_writesUnder_of_treeRekeyed (h : KeyedWriters s) {oldPrefix newPrefix : Str}
    (hcoh : (s.treeRekeyed io oldPrefix newPrefix).Coherent) (hne : oldPrefix ≠ newPrefix) :
    ¬ s.WritesUnder oldPrefix := by
  rintro ⟨fh, ino, n, ⟨w, hh⟩, hn, hstarts⟩
  obtain ⟨rest, hrest⟩ := of_decide_eq_true hstarts
  have hget : (s.inodes.rekeyPrefix io.order oldPrefix newPrefix).2.get ino =
      some { n with key := newPrefix ++ n.key.drop oldPrefix.length } := by
    rw [InodeTable.get_rekeyPrefix, hn, Option.map_some, if_pos hstarts]
  have hnew : w.dst.path = newPrefix ++ n.key.drop oldPrefix.length := hcoh fh ino w _ hh hget
  rw [h.coherent fh ino w n hh hn, ← hrest, List.drop_left] at hnew
  exact hne (List.append_cancel_right hnew)

/-! ## Renames -/

/-- The rename leaves no writer behind: a file that it moves to another name has
at most one writer, a directory that it moves has none under it. -/
def Vfs.LeavesNoWriter (s : Vfs) (cfg : VfsConfig) (io : Io) (name oldFile newFile : Str) : Prop :=
  oldFile ≠ newFile →
    match (Vfs.stat io.stat (cfg.url oldFile) s).1 with
    | .ok _ => (Vfs.moveFile cfg io oldFile newFile s).1 = .ok () →
        ∀ ino fh₁ fh₂, s.inodes.lookupKey oldFile = some ino →
          s.WritesTo fh₁ ino → s.WritesTo fh₂ ino → fh₁ = fh₂
    | .error e => e.isNotFound = true →
        (Vfs.moveTree cfg io name (oldFile ++ ['/']) (newFile ++ ['/']) s).1 = .ok () →
          ¬ s.WritesUnder (oldFile ++ ['/'])

section Rename

variable {parent newparent : Nat} {name newname : Str} {p np : Node}

theorem append_slash_ne {a b : Str} (h : a ++ ['/'] ≠ b ++ ['/']) : a ≠ b := by
  rintro rfl
  exact h rfl

theorem KeyedWriters.rename (h : KeyedWriters s) (hp : s.inodes.get parent = some p)
    (hnp : s.inodes.get newparent = some np)
    (hC : s.LeavesNoWriter cfg io name (p.key ++ name) (np.key ++ newname)) :
    KeyedWriters (Vfs.rename cfg io parent name newparent newname s).2 := by
  rw [rename_run hp hnp]
  unfold Vfs.LeavesNoWriter at hC
  cases hstat : (Vfs.stat io.stat (cfg.url (p.key ++ name)) s).1 with
  | ok obj =>
    rw [hstat] at hC
    rcases renameFile_run cfg io parent newparent (p.key ++ name) (np.key ++ newname) s with
      ⟨b, hmove, hup⟩ | ⟨-, b, heq⟩
    · refine keyed_cacheFree.apply ((keyed_bucketFree s b h).fileRekeyed ?_) hup
      exact fun hne => hC hne hmove
    · dsimp only
      rw [heq]
      exact keyed_bucketFree s b h
  | error e =>
    rw [hstat] at hC
    dsimp only
    split
    · rename_i hnot
      rcases renameDir_run cfg io parent newparent name (p.key ++ name ++ ['/'])
        (np.key ++ newname ++ ['/']) s with ⟨b, hmove, hup⟩ | ⟨-, b, heq⟩
      · refine keyed_cacheFree.apply ((keyed_bucketFree s b h).treeRekeyed ?_) hup
        exact fun hne => hC (append_slash_ne hne) hnot hmove
      · rw [heq]
        exact keyed_bucketFree s b h
    · exact h

/-- A rename that stays coherent left no writer behind. -/
theorem KeyedWriters.leavesNoWriter (h : KeyedWriters s) (hp : s.inodes.get parent = some p)
    (hnp : s.inodes.get newparent = some np)
    (hcoh : (Vfs.rename cfg io parent name newparent newname s).2.Coherent) :
    s.LeavesNoWriter cfg io name (p.key ++ name) (np.key ++ newname) := by
  intro hne
  rw [rename_run hp hnp] at hcoh
  cases hstat : (Vfs.stat io.stat (cfg.url (p.key ++ name)) s).1 with
  | ok obj =>
    rw [hstat] at hcoh
    intro hmove ino fh₁ fh₂ hino h₁ h₂
    rcases renameFile_run cfg io parent newparent (p.key ++ name) (np.key ++ newname) s with
      ⟨b, -, a, d, z, heq⟩ | ⟨hfail, -⟩
    · dsimp only at hcoh
      rw [heq] at hcoh
      exact (keyed_bucketFree s b h).writers_eq_of_fileRekeyed hcoh hne hino h₁ h₂
    · exact absurd hmove hfail
  | error e =>
    rw [hstat] at hcoh
    intro hnot hmove
    rcases renameDir_run cfg io parent newparent name (p.key ++ name ++ ['/'])
      (np.key ++ newname ++ ['/']) s with ⟨b, -, a, d, z, heq⟩ | ⟨hfail, -⟩
    · dsimp only at hcoh
      rw [if_pos hnot, heq] at hcoh
      have hslash : p.key ++ name ++ ['/'] ≠ np.key ++ newname ++ ['/'] :=
        fun heq => hne (List.append_cancel_right heq)
      exact (keyed_bucketFree s b h).not_writesUnder_of_treeRekeyed hcoh hslash
    · exact absurd hmove hfail

end Rename

/-! ## Whole runs -/

namespace Mounted

/-- Renames leave no writer behind. -/
def RenamesWithWriters (cfg : VfsConfig) (m : Mounted) : MountEvent → Prop
  | .op io (.rename parent name newparent newname) =>
    ∀ p np, m.vfs.inodes.get parent = some p → m.vfs.inodes.get newparent = some np →
      m.vfs.LeavesNoWriter cfg io name (p.key ++ name) (np.key ++ newname)
  | _ => True

theorem exec_keyed {m : Mounted} {o : Op} (h : KeyedWriters m.vfs)
    (hC : m.RenamesWithWriters cfg (.op io o)) : KeyedWriters (m.exec cfg io o).vfs := by
  have hc := keyed_cacheFree
  have hb := keyed_bucketFree
  have hin := keyed_internStable
  have hf := keyed_forgetStable
  have ht := keyed_tempFree
  have hw := keyed_writerStable
  show KeyedWriters (o.exec cfg io m.vfs).2
  cases o with
  | getattr ino => exact (keeps_getattr hc.attrCache ino).bind_pure.snd h
  | lookup parent name =>
    exact (keeps_lookup hc.attrCache hin parent name).bind_pure.snd h
  | readdir ino => exact (keeps_readdir hc.stable hin ino).bind_pure.snd h
  | read ino fh offset size =>
    exact (keeps_readHandle hc.attrCache ino fh offset size).bind_pure.snd h
  | openFile ino flags =>
    simp only [Op.exec, bind_pure_run]
    exact h.openFile ino flags
  | create parent name =>
    rw [exec_create]
    exact h.create parent name
  | write fh offset data =>
    exact (keeps_writeHandle hc.stable hc.dirtySizes hw fh offset data).bind_pure.snd h
  | flush fh => exact (keeps_flushHandle hw fh).bind_pure.snd h
  | release fh => exact (keeps_release hc.stable hc.dirtySizes hw fh).bind_pure.snd h
  | setattr ino size fh =>
    exact (keeps_setattr hc.stable hc.dirtySizes ht hb hw ino size fh).bind_pure.snd h
  | unlink parent name =>
    exact (keeps_unlink hc.stable hc.dirtySizes hb hf parent name).bind_pure.snd h
  | mkdir parent name =>
    exact (keeps_mkdir hc.stable ht hb hin parent name).bind_pure.snd h
  | rmdir parent name =>
    exact (keeps_rmdir hc.stable hb hf parent name).bind_pure.snd h
  | rename parent name newparent newname =>
    simp only [Op.exec, bind_pure_run]
    cases hp : m.vfs.inodes.get parent with
    | none =>
      rw [rename_unknown (Or.inl hp)]
      exact h
    | some p =>
      cases hnp : m.vfs.inodes.get newparent with
      | none =>
        rw [rename_unknown (Or.inr hnp)]
        exact h
      | some np => exact h.rename hp hnp (hC p np hp hnp)

theorem step_keyed {m m' : Mounted} {e : MountEvent} (h : KeyedWriters m.vfs)
    (hC : m.RenamesWithWriters cfg e) (hstep : step cfg m e = some m') : KeyedWriters m'.vfs := by
  cases e with
  | op io o =>
    obtain ⟨-, rfl⟩ := step_op hstep
    exact exec_keyed h hC
  | unmount removed =>
    obtain ⟨-, rfl⟩ := step_unmount hstep
    refine h.mono rfl fun k kno v hk => ?_
    have hnone : (m.vfs.unmounted removed).handles[k]? = none := Std.ExtTreeMap.getElem?_empty
    rw [hnone] at hk
    cases hk

theorem new_keyed (rootKey : Str) (bucket : Str → Option Stored) :
    KeyedWriters (new rootKey bucket).vfs := by
  have hnone : ∀ k : Nat, (new rootKey bucket).vfs.handles[k]? = none := fun k =>
    Std.ExtTreeMap.getElem?_empty
  refine ⟨fun k kno v n hk _ => ?_, InodeTable.new_wf rootKey, fun k kno v hk => ?_⟩
  · rw [hnone k] at hk
    cases hk
  · rw [hnone k] at hk
    cases hk

/-- **Writers follow their files.** In a run of a mount every open writer of a
known inode uploads to that inode's key in every state, exactly when every rename
of the run leaves no writer behind. -/
theorem writers_coherent_iff (cfg : VfsConfig) (rootKey : Str) (bucket : Str → Option Stored)
    {es : List MountEvent} {t : Mounted} (h : run cfg (new rootKey bucket) es = some t) :
    Machine.Always (step cfg) (fun m => m.vfs.Coherent) (new rootKey bucket) es ↔
      Machine.Along (step cfg) (RenamesWithWriters cfg) (new rootKey bucket) es := by
  refine Machine.always_iff_along (I := fun m => KeyedWriters m.vfs) (fun m hm => hm.coherent)
    (fun m e m' hm hC hstep => step_keyed hm hC hstep) ?_ h (new_keyed rootKey bucket)
  intro m e m' hm hstep hcoh
  cases e with
  | unmount removed => exact trivial
  | op io o =>
    obtain ⟨-, rfl⟩ := step_op hstep
    cases o with
    | rename parent name newparent newname =>
      intro p np hp hnp
      have hcoh' : (Op.exec cfg io (.rename parent name newparent newname) m.vfs).2.Coherent := hcoh
      simp only [Op.exec, bind_pure_run] at hcoh'
      exact hm.leavesNoWriter hp hnp hcoh'
    | _ => exact trivial

/-- A file that is there is renamed while one handle is open. -/
theorem leavesNoWriter_of_handles {s : Vfs} {io : Io} {oldFile : Str} {obj : Object}
    (hstat : (Vfs.stat io.stat (cfg.url oldFile) s).1 = .ok obj) {fh : Nat}
    (hone : ∀ e ∈ s.handles.toList, e.1 = fh) (name newFile : Str) :
    s.LeavesNoWriter cfg io name oldFile newFile := by
  intro _
  rw [hstat]
  rintro - ino fh₁ fh₂ - ⟨w₁, h₁⟩ ⟨w₂, h₂⟩
  have hfh₁ := hone _ (Std.ExtTreeMap.mem_toList_iff_getElem?_eq_some.mpr h₁)
  have hfh₂ := hone _ (Std.ExtTreeMap.mem_toList_iff_getElem?_eq_some.mpr h₂)
  exact hfh₁.trans hfh₂.symm

/-- A file is created and stored, then renamed while it is open and written again. -/
def renamedWithOneWriter : List MountEvent :=
  [.op {} (.create rootInode "a".toList), .op {} (.flush 1),
    .op {} (.rename rootInode "a".toList rootInode "b".toList), .op {} (.write 1 0 [1])]

/-- The writer goes with the file to its new name. -/
theorem writers_coherent_renamed :
    ∃ t, run .sample (new [] fun _ => none) renamedWithOneWriter = some t ∧
      (t.vfs.writer 1).map (fun w => w.dst.path) = some "b".toList ∧
      Machine.Always (step .sample) (fun m => m.vfs.Coherent) (new [] fun _ => none)
        renamedWithOneWriter := by
  obtain ⟨t, ht, hpath⟩ :
      ∃ t, run .sample (new [] fun _ => none) renamedWithOneWriter = some t ∧
        (t.vfs.writer 1).map (fun w => w.dst.path) = some "b".toList :=
    Machine.exists_run_of_any (by decide +kernel)
  refine ⟨t, ht, hpath, (writers_coherent_iff .sample [] (fun _ => none) ht).mpr ?_⟩
  refine ⟨trivial, fun m₁ h₁ => ⟨trivial, fun m₂ h₂ => ⟨?_, fun _ _ => ⟨trivial, fun _ _ => trivial⟩⟩⟩⟩
  -- the state in which the file is renamed
  obtain ⟨m, hm, hone, hstat, hroot⟩ : ∃ m,
      run .sample (new [] fun _ => none) (renamedWithOneWriter.take 2) = some m ∧
        (∀ e ∈ m.vfs.handles.toList, e.1 = 1) ∧
        (Vfs.stat none (VfsConfig.sample.url "a".toList) m.vfs).1.toOption.isSome = true ∧
        (m.vfs.inodes.get rootInode).map Node.key = some [] :=
    Machine.exists_run_of_any (by decide +kernel)
  obtain rfl : m₂ = m := by
    have hrun : run .sample (new [] fun _ => none) (renamedWithOneWriter.take 2) = some m₂ :=
      Machine.run_cons_eq_some.mpr ⟨m₁, h₁, Machine.run_cons_eq_some.mpr ⟨m₂, h₂, rfl⟩⟩
    exact Option.some.inj (hrun.symm.trans hm)
  intro p np hp hnp
  have hkey : p.key = [] := by
    rw [hp] at hroot
    exact Option.some.inj hroot
  rw [hkey]
  cases hobj : (Vfs.stat none (VfsConfig.sample.url "a".toList) m₂.vfs).1 with
  | ok obj => exact leavesNoWriter_of_handles hobj hone _ _
  | error e =>
    rw [hobj] at hstat
    cases hstat

/-- A file is created, stored, opened a second time for writing and renamed. -/
def renamedWithTwoWriters : List MountEvent :=
  [.op {} (.create rootInode "a".toList), .op {} (.flush 1), .op {} (.openFile 2 1),
    .op {} (.rename rootInode "a".toList rootInode "b".toList)]

/-- The second writer still uploads to the old name. -/
theorem second_writer_left_behind :
    ∃ t, run .sample (new [] fun _ => none) renamedWithTwoWriters = some t ∧
      (t.vfs.writer 2).map (fun w => w.dst.path) = some "a".toList ∧
      (t.vfs.inodes.get 2).map Node.key = some "b".toList ∧ ¬ t.vfs.Coherent := by
  obtain ⟨t, ht, hpath, hkey, hino⟩ :
      ∃ t, run .sample (new [] fun _ => none) renamedWithTwoWriters = some t ∧
        (t.vfs.writer 2).map (fun w => w.dst.path) = some "a".toList ∧
        (t.vfs.inodes.get 2).map Node.key = some "b".toList ∧
        (t.vfs.handles[2]?).map OpenFile.ino = some 2 :=
    Machine.exists_run_of_any (by decide +kernel)
  refine ⟨t, ht, hpath, hkey, fun hcoh => ?_⟩
  obtain ⟨w, hh, hdst⟩ := handle_of_writer hino hpath
  obtain ⟨n, hn, hnk⟩ := Option.map_eq_some_iff.mp hkey
  have heq := hcoh 2 2 w n hh hn
  rw [hdst, hnk] at heq
  exact absurd heq (by decide)

end Mounted

end Rs5cmd
