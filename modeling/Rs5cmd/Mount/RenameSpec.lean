import Rs5cmd.Mount.HandleSpec
import Rs5cmd.Mount.InodeSpec

/-!
# What a rename does

A rename is a stat of the old name, the requests of one of two branches, and then
a change of the inode table: a file's inode is given the new key and one of its
writers is re-pointed, or the keys of a whole subtree are.
-/

namespace Rs5cmd

open Cmd

variable {cfg : VfsConfig} {io : Io} {s t : Vfs}

/-! ## Files -/

/-- The table without the inode of a key. -/
def InodeTable.dropKey (t : InodeTable) (key : Str) : InodeTable :=
  match t.lookupKey key with
  | some d => t.forget d
  | none => t

/-- The state with the first writer found for the inode pointed at the key. -/
def Vfs.repointed (s : Vfs) (cfg : VfsConfig) (io : Io) (ino : Nat) (key : Str) : Vfs :=
  match s.findWriteHandle io ino none with
  | none => s
  | some (fh, w) => s.withHandle fh ⟨ino, .write { w with dst := cfg.url key }⟩

/-- What a file rename does to the table and the writers. -/
def Vfs.fileRekeyed (s : Vfs) (cfg : VfsConfig) (io : Io) (oldFile newFile : Str) : Vfs :=
  match (s.inodes.dropKey newFile).lookupKey oldFile with
  | none => { s with inodes := s.inodes.dropKey newFile }
  | some ino =>
    { s with inodes := (s.inodes.dropKey newFile).rekey ino newFile }.repointed cfg io ino newFile

theorem dropStale_run (newFile : Str) (s : Vfs) :
    ∃ u, Vfs.dropStale newFile s = (.ok (), u) ∧
      UpToCaches { s with inodes := s.inodes.dropKey newFile } u := by
  simp only [Vfs.dropStale, get_bind, InodeTable.dropKey]
  cases s.inodes.lookupKey newFile with
  | none => exact ⟨s, rfl, UpToCaches.refl s⟩
  | some d => exact ⟨_, rfl, ⟨_, _, _, rfl⟩⟩

theorem repoint_run (cfg : VfsConfig) (io : Io) (ino : Nat) (newFile : Str) (s : Vfs) :
    Vfs.repoint cfg io ino newFile s = (.ok (), s.repointed cfg io ino newFile) := by
  simp only [Vfs.repoint, get_bind, cfg.objUrl_eq, Vfs.repointed]
  cases s.findWriteHandle io ino none with
  | none => rfl
  | some r => rfl

theorem UpToCaches.repointed (h : UpToCaches s t) (cfg : VfsConfig) (io : Io) (ino : Nat)
    (key : Str) : UpToCaches (s.repointed cfg io ino key) (t.repointed cfg io ino key) := by
  obtain ⟨a, d, z, rfl⟩ := h
  have hsame : Vfs.findWriteHandle { s with attrCache := a, dirCache := d, dirtySizes := z } io ino
      none = s.findWriteHandle io ino none := rfl
  unfold Vfs.repointed
  rw [hsame]
  cases s.findWriteHandle io ino none with
  | none => exact ⟨a, d, z, rfl⟩
  | some r => exact ⟨a, d, z, rfl⟩

theorem rekeyFile_run (cfg : VfsConfig) (io : Io) (oldFile newFile : Str) (s : Vfs) :
    ∃ u, Vfs.rekeyFile cfg io oldFile newFile s = (.ok (), u) ∧
      UpToCaches (s.fileRekeyed cfg io oldFile newFile) u := by
  obtain ⟨u, hu, a, d, z, rfl⟩ := dropStale_run newFile s
  rw [show Vfs.rekeyFile cfg io oldFile newFile s = _ from bind_ok hu]
  simp only [get_bind, Vfs.fileRekeyed]
  cases (s.inodes.dropKey newFile).lookupKey oldFile with
  | none => exact ⟨_, rfl, ⟨a, d, z, rfl⟩⟩
  | some ino =>
    exact ⟨_, repoint_run cfg io ino newFile _, UpToCaches.repointed ⟨_, _, _, rfl⟩ cfg io ino newFile⟩

/-- What the repointed writer leaves: the writers of the inode other than the one
found, and all others, as they were. -/
theorem handles_repointed {ino : Nat} {key : Str} {k kno : Nat} {v : Writer}
    (h : (s.repointed cfg io ino key).handles[k]? = some ⟨kno, .write v⟩) :
    (∃ w, s.findWriteHandle io ino none = some (k, w) ∧ kno = ino ∧ v = { w with dst := cfg.url key }) ∨
      ((∀ w, s.findWriteHandle io ino none ≠ some (k, w)) ∧ s.handles[k]? = some ⟨kno, .write v⟩) := by
  unfold Vfs.repointed at h
  cases hfind : s.findWriteHandle io ino none with
  | none =>
    rw [hfind] at h
    exact Or.inr ⟨by simp, h⟩
  | some r =>
    obtain ⟨fh, w⟩ := r
    rw [hfind] at h
    dsimp only at h
    by_cases hk : k = fh
    · subst hk
      rw [Vfs.handles_withHandle_self] at h
      obtain ⟨rfl, rfl⟩ : ino = kno ∧ { w with dst := cfg.url key } = v := by simpa using h
      exact Or.inl ⟨w, rfl, rfl, rfl⟩
    · rw [Vfs.handles_withHandle_of_ne _ hk] at h
      refine Or.inr ⟨?_, h⟩
      intro w' heq
      exact hk (Prod.mk.inj (Option.some.inj heq)).1.symm

theorem inodes_repointed (s : Vfs) (cfg : VfsConfig) (io : Io) (ino : Nat) (key : Str) :
    (s.repointed cfg io ino key).inodes = s.inodes := by
  unfold Vfs.repointed
  cases s.findWriteHandle io ino none with
  | none => rfl
  | some r => rfl

theorem lookupKey_dropKey {tab : InodeTable} (h : tab.Wf) (oldFile newFile : Str) :
    (tab.dropKey newFile).lookupKey oldFile =
      if newFile = oldFile then none else tab.lookupKey oldFile := by
  unfold InodeTable.dropKey
  cases hnew : tab.lookupKey newFile with
  | none =>
    dsimp only
    split
    · rename_i heq
      rw [← heq]
      exact hnew
    · rfl
  | some d =>
    obtain ⟨n, hn, hkey⟩ := h.byKey newFile d hnew
    have hn' : tab.nodes[d]? = some n := hn
    simp only [InodeTable.forget, hn', InodeTable.lookupKey, Maps.getElem?_erase_eq, hkey]

/-- The inode of another key is still there. -/
theorem get_dropKey {tab : InodeTable} (h : tab.Wf) {oldFile newFile : Str} (hne : oldFile ≠ newFile)
    {ino : Nat} (hino : tab.lookupKey oldFile = some ino) :
    ∃ n, (tab.dropKey newFile).get ino = some n ∧ tab.get ino = some n ∧ n.key = oldFile := by
  obtain ⟨n, hn, hkey⟩ := h.byKey oldFile ino hino
  refine ⟨n, ?_, hn, hkey⟩
  unfold InodeTable.dropKey
  cases hnew : tab.lookupKey newFile with
  | none => exact hn
  | some d =>
    obtain ⟨n', hn', hkey'⟩ := h.byKey newFile d hnew
    have hd : d ≠ ino := by
      rintro rfl
      obtain rfl := Option.some.inj (hn.symm.trans hn')
      exact hne (hkey.symm.trans hkey')
    dsimp only
    rw [InodeTable.get_forget, if_neg hd]
    exact hn

/-! ## Directories -/

/-- What a directory rename does to the table. -/
def Vfs.treeRekeyed (s : Vfs) (io : Io) (oldPrefix newPrefix : Str) : Vfs :=
  { s with inodes := (s.inodes.rekeyPrefix io.order oldPrefix newPrefix).2 }

theorem rekeyTree_run (io : Io) (oldPrefix newPrefix : Str) (s : Vfs) :
    ∃ u, Vfs.rekeyTree io oldPrefix newPrefix s = (.ok (), u) ∧
      UpToCaches (s.treeRekeyed io oldPrefix newPrefix) u := by
  have hids : ∀ (ids : List Nat) (v : Vfs),
      ∃ u, forEach Vfs.invalidateAttr ids v = (.ok (), u) ∧ UpToCaches v u := by
    intro ids
    induction ids with
    | nil => exact fun v => ⟨v, rfl, UpToCaches.refl v⟩
    | cons i ids ih =>
      intro v
      obtain ⟨u, hu, a, d, z, rfl⟩ := ih { v with attrCache := v.attrCache.erase i }
      exact ⟨_, hu, ⟨_, _, _, rfl⟩⟩
  exact hids _ (s.treeRekeyed io oldPrefix newPrefix)

/-! ## Renames -/

/-- A state that differs in the bucket only. -/
def UpToBucket (s s' : Vfs) : Prop := ∃ b, s' = { s with bucket := b }

theorem upToBucket_bucketFree (s : Vfs) : BucketFree (UpToBucket s) := by
  rintro _ b ⟨b', rfl⟩
  exact ⟨b, rfl⟩

/-- After the requests: the table and the writers, up to the caches. -/
theorem renameFile_run (cfg : VfsConfig) (io : Io) (parent newparent : Nat) (oldFile newFile : Str)
    (s : Vfs) :
    (∃ b, (Vfs.moveFile cfg io oldFile newFile s).1 = .ok () ∧
        UpToCaches ({ s with bucket := b }.fileRekeyed cfg io oldFile newFile)
          (Vfs.renameFile cfg io parent newparent oldFile newFile s).2) ∨
      ((Vfs.moveFile cfg io oldFile newFile s).1 ≠ .ok () ∧
        UpToBucket s (Vfs.renameFile cfg io parent newparent oldFile newFile s).2) := by
  have hbucket : UpToBucket s (Vfs.moveFile cfg io oldFile newFile s).2 :=
    (keeps_moveFile (upToBucket_bucketFree s) oldFile newFile).snd ⟨s.bucket, rfl⟩
  cases hmove : Vfs.moveFile cfg io oldFile newFile s with
  | mk r u =>
    rw [hmove] at hbucket
    obtain ⟨b, rfl⟩ := hbucket
    cases r with
    | error e =>
      rw [show Vfs.renameFile cfg io parent newparent oldFile newFile s = _ from bind_error hmove]
      exact Or.inr ⟨by simp, ⟨b, rfl⟩⟩
    | ok x =>
      rw [show Vfs.renameFile cfg io parent newparent oldFile newFile s = _ from bind_ok hmove]
      obtain ⟨v, hv, a, d, z, rfl⟩ := rekeyFile_run cfg io oldFile newFile { s with bucket := b }
      rw [bind_ok hv]
      exact Or.inl ⟨b, rfl, ⟨_, _, _, rfl⟩⟩

theorem renameDir_run (cfg : VfsConfig) (io : Io) (parent newparent : Nat)
    (name oldPrefix newPrefix : Str) (s : Vfs) :
    (∃ b, (Vfs.moveTree cfg io name oldPrefix newPrefix s).1 = .ok () ∧
        UpToCaches ({ s with bucket := b }.treeRekeyed io oldPrefix newPrefix)
          (Vfs.renameDir cfg io parent newparent name oldPrefix newPrefix s).2) ∨
      ((Vfs.moveTree cfg io name oldPrefix newPrefix s).1 ≠ .ok () ∧
        UpToBucket s (Vfs.renameDir cfg io parent newparent name oldPrefix newPrefix s).2) := by
  have hbucket : UpToBucket s (Vfs.moveTree cfg io name oldPrefix newPrefix s).2 :=
    (keeps_moveTree (upToBucket_bucketFree s) name oldPrefix newPrefix).snd ⟨s.bucket, rfl⟩
  cases hmove : Vfs.moveTree cfg io name oldPrefix newPrefix s with
  | mk r u =>
    rw [hmove] at hbucket
    obtain ⟨b, rfl⟩ := hbucket
    cases r with
    | error e =>
      rw [show Vfs.renameDir cfg io parent newparent name oldPrefix newPrefix s = _ from bind_error hmove]
      exact Or.inr ⟨by simp, ⟨b, rfl⟩⟩
    | ok x =>
      rw [show Vfs.renameDir cfg io parent newparent name oldPrefix newPrefix s = _ from bind_ok hmove]
      obtain ⟨v, hv, a, d, z, rfl⟩ := rekeyTree_run io oldPrefix newPrefix { s with bucket := b }
      rw [bind_ok hv]
      exact Or.inl ⟨b, rfl, ⟨_, _, _, rfl⟩⟩

section Rename

variable {parent newparent : Nat} {name newname : Str} {p np : Node}

/-- The state after a rename is that of the branch taken. -/
theorem rename_run (hp : s.inodes.get parent = some p) (hnp : s.inodes.get newparent = some np) :
    (Vfs.rename cfg io parent name newparent newname s).2 =
      match (Vfs.stat io.stat (cfg.url (p.key ++ name)) s).1 with
      | .ok _ => (Vfs.renameFile cfg io parent newparent (p.key ++ name) (np.key ++ newname) s).2
      | .error e =>
        if e.isNotFound then (Vfs.renameDir cfg io parent newparent name (p.key ++ name ++ ['/'])
          (np.key ++ newname ++ ['/']) s).2
        else s := by
  rw [show Vfs.rename cfg io parent name newparent newname s = _ from bind_ok (node_ok hp)]
  rw [bind_ok (node_ok hnp)]
  simp only [cfg.objUrl_eq, ofExcept_ok_bind]
  rw [attempt_bind, stat_run]
  cases (Vfs.stat io.stat (cfg.url (p.key ++ name)) s).1 with
  | ok obj => rfl
  | error e =>
    dsimp only
    cases e.isNotFound with
    | true => rfl
    | false => rfl

theorem rename_unknown
    (h : s.inodes.get parent = none ∨ s.inodes.get newparent = none) :
    (Vfs.rename cfg io parent name newparent newname s).2 = s := by
  cases hp : s.inodes.get parent with
  | none =>
    obtain ⟨e, he⟩ := node_none hp
    rw [show Vfs.rename cfg io parent name newparent newname s = _ from bind_error he]
  | some p =>
    obtain ⟨e, he⟩ := node_none (h.resolve_left (by simp [hp]))
    rw [show Vfs.rename cfg io parent name newparent newname s = _ from bind_ok (node_ok hp)]
    rw [bind_error he]

end Rename

end Rs5cmd
