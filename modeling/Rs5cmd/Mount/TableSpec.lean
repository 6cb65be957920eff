import Rs5cmd.Mount.RenameSpec
import Mathlib.Logic.Relation

/-!
# What the operations do to the inode table

Every operation changes the inode table by a few kinds of change, each with the
arguments it gets from the operation: a child of a known directory is interned,
the inode of a removed name is forgotten, and a rename gives new keys. What each
kind of change keeps is therefore kept by whole runs of a mount.
-/

namespace Rs5cmd

open Cmd Relation

/-! ## Names -/

/-- The key of a child of a directory. -/
def Node.child (p : Node) (name : Str) : NodeKind → Str
  | .file => p.key ++ name
  | .dir => p.key ++ name ++ ['/']

/-- The names an operation is given. -/
def Op.names : Op → List Str
  | .lookup _ name => [name]
  | .create _ name => [name]
  | .unlink _ name => [name]
  | .mkdir _ name => [name]
  | .rmdir _ name => [name]
  | .rename _ name _ newname => [name, newname]
  | _ => []

/-- A listing of the directory `p` has a child of that name and kind. -/
def ListsChild (objs : List Object) (p : Node) (name : Str) (kind : NodeKind) : Prop :=
  ∃ obj ∈ objs, ∃ u, obj.err = none ∧ obj.url = some u ∧ name ≠ [] ∧
    match kind with
    | .file => obj.typ = .file ∧ name = (Str.stripPrefix p.key u.path).getD u.path
    | .dir => obj.typ = .dir ∧
        name = Str.trimEndMatches '/' ((Str.stripPrefix p.key u.path).getD u.path)

/-! ## Changes -/

/-- The table after a file rename. -/
def InodeTable.fileRenamed (t : InodeTable) (oldFile newFile : Str) : InodeTable :=
  match (t.dropKey newFile).lookupKey oldFile with
  | none => t.dropKey newFile
  | some ino => (t.dropKey newFile).rekey ino newFile

/-- One change of the table by an operation that starts in `s`. -/
inductive TableStep (cfg : VfsConfig) (io : Io) (o : Op) (s : Vfs) :
    InodeTable → InodeTable → Prop where
  | intern {t : InodeTable} {parent : Nat} {p : Node} {name : Str} {kind : NodeKind}
      (hp : t.get parent = some p)
      (hdir : p.kind.isDir = true ∨ o = .mkdir parent name)
      (hname : name ∈ o.names ∨
        (o = .readdir parent ∧ s.inodes.get parent = some p ∧ ListsChild io.list p name kind)) :
      TableStep cfg io o s t (t.intern (p.child name kind) kind parent).2
  | forget {t : InodeTable} {parent ino : Nat} {p : Node} {name : Str} (kind : NodeKind)
      (hp : t.get parent = some p) (hname : name ∈ o.names)
      (hino : t.lookupKey (p.child name kind) = some ino) : TableStep cfg io o s t (t.forget ino)
  | renameFile {parent newparent : Nat} {name newname : Str} {p np : Node} {obj : Object}
      (ho : o = .rename parent name newparent newname) (hp : s.inodes.get parent = some p)
      (hnp : s.inodes.get newparent = some np)
      (hstat : (Vfs.stat io.stat (cfg.url (p.key ++ name)) s).1 = .ok obj)
      (hmove : (Vfs.moveFile cfg io (p.key ++ name) (np.key ++ newname) s).1 = .ok ()) :
      TableStep cfg io o s s.inodes (s.inodes.fileRenamed (p.key ++ name) (np.key ++ newname))
  | renameDir {parent newparent : Nat} {name newname : Str} {p np : Node} {e : MountError}
      (ho : o = .rename parent name newparent newname) (hp : s.inodes.get parent = some p)
      (hnp : s.inodes.get newparent = some np)
      -- there is no file of that name, and the requests of the directory rename succeeded
      (hstat : (Vfs.stat io.stat (cfg.url (p.key ++ name)) s).1 = .error e)
      (hnot : e.isNotFound = true)
      (hmove : (Vfs.moveTree cfg io name (p.key ++ name ++ ['/']) (np.key ++ newname ++ ['/']) s).1 =
        .ok ()) :
      TableStep cfg io o s s.inodes (s.inodes.rekeyPrefix io.order (p.key ++ name ++ ['/'])
        (np.key ++ newname ++ ['/'])).2

/-- What an operation makes of the table. -/
abbrev TableSteps (cfg : VfsConfig) (io : Io) (o : Op) (s : Vfs) : InodeTable → InodeTable → Prop :=
  ReflTransGen (TableStep cfg io o s)

theorem InodeTable.Wf.dropKey {t : InodeTable} (h : t.Wf) (key : Str) : (t.dropKey key).Wf := by
  unfold InodeTable.dropKey
  split
  · exact h.forget _
  · exact h

theorem TableStep.wf {cfg : VfsConfig} {io : Io} {o : Op} {s : Vfs} {t t' : InodeTable}
    (hstep : TableStep cfg io o s t t') (h : t.Wf) : t'.Wf := by
  cases hstep with
  | intern hp hdir hname => exact h.intern _ _ _
  | forget kind hp hname hino => exact h.forget _
  | renameFile ho hp hnp hstat hmove =>
    unfold InodeTable.fileRenamed
    split
    · exact h.dropKey _
    · exact (h.dropKey _).rekey _ _
  | renameDir ho hp hnp hstat hnot hmove => exact h.rekeyPrefix _ _ _

/-! ## Assertions about the table -/

section OfTable

variable (P : InodeTable → Prop)

/-- The table satisfies `P`. -/
def OfTable (s : Vfs) : Prop := P s.inodes

theorem ofTable_cacheFree : CacheFree (OfTable P) where
  attrCache _ _ h := h
  dirCache _ _ h := h
  dirtySizes _ _ h := h

theorem ofTable_bucketFree : BucketFree (OfTable P) := fun _ _ h => h

theorem ofTable_tempFree : TempFree (OfTable P) where
  nextFh _ h := h
  temp _ _ _ _ h := h

theorem ofTable_writerStable : WriterStable (OfTable P) where
  file _ _ _ h := h
  close _ _ h := h
  writer _ _ _ _ _ _ _ h := h
  stored _ _ _ _ _ _ _ h := h

end OfTable

section Table

variable {cfg : VfsConfig} {io : Io} {s : Vfs}

theorem UpToCaches.inodes {s' : Vfs} (h : UpToCaches s s') : s'.inodes = s.inodes := by
  obtain ⟨a, d, z, rfl⟩ := h
  rfl

/-! ## Operations that leave the table alone -/

theorem openFile_inodes (cfg : VfsConfig) (io : Io) (ino : Nat) (flags : BitVec 32) (s : Vfs) :
    (Vfs.openFile cfg io ino flags s).2.inodes = s.inodes := by
  have hspec := openFile_spec cfg io ino flags s
  generalize Vfs.openFile cfg io ino flags s = r at hspec
  cases hspec with
  | read src size hflags hs => exact hs.inodes
  | write size hflags hn hm hs => exact hs.inodes
  | error e k c hk hs => exact hs.inodes

/-! ## Lookups -/

theorem lookup_table (cfg : VfsConfig) (io : Io) (parent : Nat) (name : Str) (s : Vfs) :
    (Vfs.lookup cfg io parent name s).2.inodes = s.inodes ∨
      ∃ p kind, s.inodes.get parent = some p ∧ p.kind.isDir = true ∧
        (Vfs.lookup cfg io parent name s).2.inodes =
          (s.inodes.intern (p.child name kind) kind parent).2 := by
  cases hp : s.inodes.get parent with
  | none =>
    obtain ⟨e, he⟩ := node_none hp
    rw [show Vfs.lookup cfg io parent name s = (.error e, s) from bind_error he]
    exact Or.inl rfl
  | some p =>
    rw [show Vfs.lookup cfg io parent name s = _ from bind_ok (node_ok hp)]
    cases hdir : p.kind.isDir with
    | false => exact Or.inl rfl
    | true =>
      simp only [Bool.not_true, Bool.false_eq_true, if_false, get_bind]
      cases s.pendingOrCached cfg io parent (p.key ++ name) name with
      | some ino => exact Or.inl (getattr_upToCaches cfg io ino s).inodes
      | none =>
        dsimp only
        rw [cfg.objUrl_eq, ofExcept_ok_bind, attempt_bind, stat_run]
        cases (Vfs.stat io.stat (cfg.url (p.key ++ name)) s).1 with
        | ok obj => exact Or.inr ⟨p, .file, rfl, hdir, rfl⟩
        | error e =>
          dsimp only
          split
          · have hrun := prefixExists_run cfg io.list (p.key ++ name ++ ['/']) s
            cases hexists : Vfs.prefixExists cfg io.list (p.key ++ name ++ ['/']) s with
            | mk r u =>
              rw [hexists] at hrun
              obtain rfl : u = s := hrun
              cases r with
              | error e =>
                rw [bind_error hexists]
                exact Or.inl rfl
              | ok found =>
                rw [bind_ok hexists]
                cases found with
                | false => exact Or.inl rfl
                | true => exact Or.inr ⟨p, .dir, rfl, hdir, rfl⟩
          · exact Or.inl rfl

/-! ## Listings -/

/-- How far a listing of `ino` has got: the directory is still there, and what has
changed are new children. -/
structure ListingTable (cfg : VfsConfig) (io : Io) (s : Vfs) (ino : Nat) (n : Node)
    (t : InodeTable) : Prop where
  wf : t.Wf
  dir : t.get ino = some n
  steps : TableSteps cfg io (.readdir ino) s s.inodes t

theorem ListingTable.intern {ino : Nat} {n : Node} {t : InodeTable} {name : Str} {kind : NodeKind}
    (h : ListingTable cfg io s ino n t) (hn : s.inodes.get ino = some n) (hdir : n.kind.isDir = true)
    (hname : ListsChild io.list n name kind) :
    ListingTable cfg io s ino n (t.intern (n.child name kind) kind ino).2 where
  wf := h.wf.intern _ _ _
  dir := by
    rw [InodeTable.get_intern_of_lt _ _ _ _ (h.wf.lt_next h.dir)]
    exact h.dir
  steps := h.steps.tail (.intern h.dir (Or.inl hdir) (Or.inr ⟨rfl, hn, hname⟩))

theorem keeps_readdirStep_table {ino : Nat} {n : Node} (hn : s.inodes.get ino = some n)
    (hdir : n.kind.isDir = true) (acc : Vfs.Listing) {obj : Object} (hobj : obj ∈ io.list) :
    Keeps (OfTable (ListingTable cfg io s ino n)) (Vfs.readdirStep cfg ino n acc obj) := by
  unfold Vfs.readdirStep
  split
  · split
    · exact keeps_pure _
    · exact keeps_fail _
  · rename_i herr
    split
    · exact keeps_pure _
    · rename_i u hu
      dsimp only
      split
      · exact keeps_pure _
      · rename_i hrel
        split
        · rename_i htyp
          split
          · exact keeps_pure _
          · rename_i hskip
            have hname : Str.trimEndMatches '/' ((Str.stripPrefix n.key u.path).getD u.path) ≠ [] :=
              fun hnil => hskip (Or.inl hnil)
            refine Keeps.bind_pure ?_
            intro v hv
            have hlists : ListsChild io.list n _ .dir := ⟨obj, hobj, u, herr, hu, hname, htyp, rfl⟩
            exact ListingTable.intern hv hn hdir hlists
        · rename_i htyp
          split
          · exact keeps_pure _
          · refine Keeps.bind_pure ?_
            intro v hv
            have hlists : ListsChild io.list n _ .file := ⟨obj, hobj, u, herr, hu, hrel, htyp, rfl⟩
            exact ListingTable.intern hv hn hdir hlists
        · exact keeps_pure _

theorem keeps_readdirLoop_table {ino : Nat} {n : Node} (hn : s.inodes.get ino = some n)
    (hdir : n.kind.isDir = true) (objs : List Object) (hobjs : ∀ obj ∈ objs, obj ∈ io.list)
    (acc : Vfs.Listing) :
    Keeps (OfTable (ListingTable cfg io s ino n)) (Vfs.readdirLoop cfg ino n objs acc) := by
  induction objs generalizing acc with
  | nil => exact keeps_pure _
  | cons obj objs ih =>
    refine Keeps.bind (keeps_readdirStep_table hn hdir acc (hobjs obj List.mem_cons_self)) ?_
    intro r
    split
    · exact ih (fun a ha => hobjs a (List.mem_cons_of_mem obj ha)) _
    · exact keeps_pure _

theorem readdir_table (cfg : VfsConfig) (io : Io) (hwf : s.inodes.Wf) (ino : Nat) :
    TableSteps cfg io (.readdir ino) s s.inodes (Vfs.readdir cfg io ino s).2.inodes := by
  cases hn : s.inodes.get ino with
  | none =>
    obtain ⟨e, he⟩ := node_none hn
    rw [show Vfs.readdir cfg io ino s = (.error e, s) from bind_error he]
  | some n =>
    rw [show Vfs.readdir cfg io ino s = _ from bind_ok (node_ok hn)]
    cases hdir : n.kind.isDir with
    | false => exact ReflTransGen.refl
    | true =>
      simp only [Bool.not_true, Bool.false_eq_true, if_false, get_bind]
      cases s.cachedDir cfg io ino with
      | some entries => exact ReflTransGen.refl
      | none =>
        dsimp only
        have hc := ofTable_cacheFree (ListingTable cfg io s ino n)
        apply ListingTable.steps (n := n)
        refine Keeps.snd (I := OfTable (ListingTable cfg io s ino n)) ?_ ⟨hwf, hn, ReflTransGen.refl⟩
        refine Keeps.bind (keeps_ofExcept _) fun _ => ?_
        refine Keeps.bind (keeps_readdirLoop_table hn hdir io.list (fun _ h => h) {}) fun acc => ?_
        refine Keeps.bind keeps_get fun u => ?_
        refine Keeps.bind (keeps_forEach _ fun a _ => keeps_storeAttr hc.attrCache a) fun _ => ?_
        exact (keeps_modify fun u => hc.dirCache u _).bind_pure

/-! ## Making and removing -/

theorem mkdir_table (cfg : VfsConfig) (io : Io) (parent : Nat) (name : Str) (s : Vfs) :
    (Vfs.mkdir cfg io parent name s).2.inodes = s.inodes ∨
      ∃ p, s.inodes.get parent = some p ∧ (Vfs.mkdir cfg io parent name s).2.inodes =
        (s.inodes.intern (p.child name .dir) .dir parent).2 := by
  cases hp : s.inodes.get parent with
  | none =>
    obtain ⟨e, he⟩ := node_none hp
    rw [show Vfs.mkdir cfg io parent name s = (.error e, s) from bind_error he]
    exact Or.inl rfl
  | some p =>
    rw [show Vfs.mkdir cfg io parent name s = _ from bind_ok (node_ok hp)]
    rw [cfg.objUrl_eq, ofExcept_ok_bind, attempt_bind, stat_run]
    cases (Vfs.stat io.stat (cfg.url (p.key ++ name)) s).1 with
    | ok obj => exact Or.inl rfl
    | error e =>
      dsimp only
      split
      · exact Or.inl rfl
      · have hrun := prefixExists_run cfg io.list (p.key ++ name ++ ['/']) s
        cases hexists : Vfs.prefixExists cfg io.list (p.key ++ name ++ ['/']) s with
        | mk r u =>
          rw [hexists] at hrun
          obtain rfl : u = s := hrun
          cases r with
          | error e =>
            rw [bind_error hexists]
            exact Or.inl rfl
          | ok found =>
            rw [bind_ok hexists]
            cases found with
            | true => exact Or.inl rfl
            | false =>
              -- the marker is stored, which does not look at the table
              have hput : (Vfs.putEmptyObject cfg io (p.key ++ name ++ ['/']) u).2.inodes = u.inodes :=
                (keeps_putEmptyObject (ofTable_tempFree (· = u.inodes)) (ofTable_bucketFree _) _).snd rfl
              simp only [Bool.false_eq_true, if_false]
              cases hrun : Vfs.putEmptyObject cfg io (p.key ++ name ++ ['/']) u with
              | mk r v =>
                rw [hrun] at hput
                cases r with
                | error e =>
                  rw [bind_error hrun]
                  exact Or.inl hput
                | ok x =>
                  rw [bind_ok hrun]
                  refine Or.inr ⟨p, rfl, ?_⟩
                  show (v.inodes.intern _ _ _).2 = _
                  rw [show v.inodes = u.inodes from hput]
                  rfl

/-- A deletion does not look at the table. -/
theorem delete_inodes (fault : RequestFault) (u : Url) (s : Vfs) :
    (Vfs.delete fault u s).2.inodes = s.inodes :=
  (keeps_delete (ofTable_bucketFree (· = s.inodes)) fault u).snd rfl

/-- The outcomes of `unlink`: the deletion fails, or it succeeds and what the VFS
knows of the file is dropped. -/
inductive UnlinkOutcome (s : Vfs) (parent : Nat) (name : Str) :
    Except MountError Unit × Vfs → Prop where
  | error (e : MountError) (b : Str → Option Stored) :
      UnlinkOutcome s parent name (.error e, { s with bucket := b })
  | unknown (b : Str → Option Stored) :
      UnlinkOutcome s parent name
        (.ok (), { s with bucket := b, dirCache := s.dirCache.erase parent })
  | known {p : Node} {ino : Nat} (b : Str → Option Stored) (hp : s.inodes.get parent = some p)
      (hino : s.inodes.lookupKey (p.child name .file) = some ino) :
      UnlinkOutcome s parent name (.ok (), { s with
        bucket := b
        attrCache := s.attrCache.erase ino
        dirtySizes := s.dirtySizes.erase ino
        inodes := s.inodes.forget ino
        dirCache := s.dirCache.erase parent })

theorem delete_run (fault : RequestFault) (u : Url) (s : Vfs) :
    ∃ b, (Vfs.delete fault u s).2 = { s with bucket := b } := by
  refine (keeps_delete (I := fun v => ∃ b, v = { s with bucket := b }) ?_ fault u).snd ⟨_, rfl⟩
  rintro _ b ⟨c, rfl⟩
  exact ⟨b, rfl⟩

theorem unlink_spec (cfg : VfsConfig) (io : Io) (parent : Nat) (name : Str) (s : Vfs) :
    UnlinkOutcome s parent name (Vfs.unlink cfg io parent name s) := by
  cases hp : s.inodes.get parent with
  | none =>
    obtain ⟨e, he⟩ := node_none hp
    rw [show Vfs.unlink cfg io parent name s = (.error e, s) from bind_error he]
    exact .error e s.bucket
  | some p =>
    rw [show Vfs.unlink cfg io parent name s = _ from bind_ok (node_ok hp)]
    rw [cfg.objUrl_eq, ofExcept_ok_bind]
    obtain ⟨b, hb⟩ := delete_run (io.delete 0) (cfg.url (p.key ++ name)) s
    cases hrun : Vfs.delete (io.delete 0) (cfg.url (p.key ++ name)) s with
    | mk r v =>
      rw [hrun] at hb
      obtain rfl : v = { s with bucket := b } := hb
      cases r with
      | error e =>
        rw [bind_error hrun]
        exact .error e b
      | ok x =>
        rw [bind_ok hrun]
        cases hino : s.inodes.lookupKey (p.key ++ name) with
        | none =>
          have hdrop : Vfs.dropFile (p.key ++ name) { s with bucket := b } =
              (.ok (), { s with bucket := b }) := by
            simp only [Vfs.dropFile, get_bind, hino]
            rfl
          rw [bind_ok hdrop]
          exact .unknown b
        | some ino =>
          have hdrop : Vfs.dropFile (p.key ++ name) { s with bucket := b } = (.ok (), { s with
              bucket := b
              attrCache := s.attrCache.erase ino
              dirtySizes := s.dirtySizes.erase ino
              inodes := s.inodes.forget ino }) := by
            simp only [Vfs.dropFile, get_bind, hino]
            rfl
          rw [bind_ok hdrop]
          exact .known b hp hino

theorem unlink_table (cfg : VfsConfig) (io : Io) (parent : Nat) (name : Str) (s : Vfs) :
    (Vfs.unlink cfg io parent name s).2.inodes = s.inodes ∨
      ∃ p ino, s.inodes.get parent = some p ∧ s.inodes.lookupKey (p.child name .file) = some ino ∧
        (Vfs.unlink cfg io parent name s).2.inodes = s.inodes.forget ino := by
  have hspec := unlink_spec cfg io parent name s
  generalize Vfs.unlink cfg io parent name s = r at hspec
  cases hspec with
  | error e b => exact Or.inl rfl
  | unknown b => exact Or.inl rfl
  | known b hp hino => exact Or.inr ⟨_, _, hp, hino, rfl⟩

theorem rmdir_table (cfg : VfsConfig) (io : Io) (parent : Nat) (name : Str) (s : Vfs) :
    (Vfs.rmdir cfg io parent name s).2.inodes = s.inodes ∨
      ∃ p ino, s.inodes.get parent = some p ∧ s.inodes.lookupKey (p.child name .dir) = some ino ∧
        (Vfs.rmdir cfg io parent name s).2.inodes = s.inodes.forget ino := by
  cases hp : s.inodes.get parent with
  | none =>
    obtain ⟨e, he⟩ := node_none hp
    rw [show Vfs.rmdir cfg io parent name s = (.error e, s) from bind_error he]
    exact Or.inl rfl
  | some p =>
    rw [show Vfs.rmdir cfg io parent name s = _ from bind_ok (node_ok hp)]
    have hempty := dirIsEmpty_run cfg io.list (p.key ++ name ++ ['/']) s
    cases hrun : Vfs.dirIsEmpty cfg io.list (p.key ++ name ++ ['/']) s with
    | mk r u =>
      rw [hrun] at hempty
      obtain rfl : u = s := hempty
      cases r with
      | error e =>
        rw [bind_error hrun]
        exact Or.inl rfl
      | ok empty =>
        rw [bind_ok hrun]
        cases empty with
        | false => exact Or.inl rfl
        | true =>
          simp only [Bool.not_true, Bool.false_eq_true, if_false, cfg.objUrl_eq, ofExcept_ok_bind]
          have hdel := delete_inodes (io.delete 0) (cfg.url (p.key ++ name ++ ['/'])) u
          cases hdrun : Vfs.delete (io.delete 0) (cfg.url (p.key ++ name ++ ['/'])) u with
          | mk r v =>
            rw [hdrun] at hdel
            have hv : v.inodes = u.inodes := hdel
            cases r with
            | error e =>
              rw [bind_error hdrun]
              exact Or.inl hv
            | ok x =>
              rw [bind_ok hdrun, get_bind]
              cases hino : v.inodes.lookupKey (p.key ++ name ++ ['/']) with
              | none => exact Or.inl hv
              | some ino =>
                refine Or.inr ⟨p, ino, rfl, ?_, ?_⟩
                · rw [← hv]
                  exact hino
                · rw [← hv]
                  rfl

/-! ## Renames -/

theorem fileRekeyed_inodes (s : Vfs) (cfg : VfsConfig) (io : Io) (oldFile newFile : Str) :
    (s.fileRekeyed cfg io oldFile newFile).inodes = s.inodes.fileRenamed oldFile newFile := by
  unfold Vfs.fileRekeyed InodeTable.fileRenamed
  cases (s.inodes.dropKey newFile).lookupKey oldFile with
  | none => rfl
  | some ino => exact inodes_repointed _ _ _ _ _

theorem rename_table (cfg : VfsConfig) (io : Io) (parent : Nat) (name : Str) (newparent : Nat)
    (newname : Str) (s : Vfs) :
    TableSteps cfg io (.rename parent name newparent newname) s s.inodes
      (Vfs.rename cfg io parent name newparent newname s).2.inodes := by
  cases hp : s.inodes.get parent with
  | none => rw [rename_unknown (Or.inl hp)]
  | some p =>
    cases hnp : s.inodes.get newparent with
    | none => rw [rename_unknown (Or.inr hnp)]
    | some np =>
      rw [rename_run hp hnp]
      cases hstat : (Vfs.stat io.stat (cfg.url (p.key ++ name)) s).1 with
      | ok obj =>
        rcases renameFile_run cfg io parent newparent (p.key ++ name) (np.key ++ newname) s with
          ⟨b, hmove, hup⟩ | ⟨-, b, heq⟩
        · dsimp only
          rw [hup.inodes, fileRekeyed_inodes]
          exact ReflTransGen.single (.renameFile rfl hp hnp hstat hmove)
        · dsimp only
          rw [heq]
      | error e =>
        dsimp only
        split
        · rename_i hnot
          rcases renameDir_run cfg io parent newparent name (p.key ++ name ++ ['/'])
            (np.key ++ newname ++ ['/']) s with ⟨b, hmove, hup⟩ | ⟨-, b, heq⟩
          · rw [hup.inodes]
            exact ReflTransGen.single (.renameDir rfl hp hnp hstat hnot hmove)
          · rw [heq]
        · exact ReflTransGen.refl

/-! ## All operations -/

/-- **What an operation does to the table.** -/
theorem exec_table (cfg : VfsConfig) (io : Io) (o : Op) (hwf : s.inodes.Wf) :
    TableSteps cfg io o s s.inodes (o.exec cfg io s).2.inodes := by
  have hc := ofTable_cacheFree (TableSteps cfg io o s s.inodes)
  have hb := ofTable_bucketFree (TableSteps cfg io o s s.inodes)
  have ht := ofTable_tempFree (TableSteps cfg io o s s.inodes)
  have hw := ofTable_writerStable (TableSteps cfg io o s s.inodes)
  have hstart : OfTable (TableSteps cfg io o s s.inodes) s := ReflTransGen.refl
  cases o with
  | getattr ino => exact (keeps_getattr hc.attrCache ino).bind_pure.snd hstart
  | read ino fh offset size =>
    exact (keeps_readHandle hc.attrCache ino fh offset size).bind_pure.snd hstart
  | write fh offset data =>
    exact (keeps_writeHandle hc.stable hc.dirtySizes hw fh offset data).bind_pure.snd hstart
  | flush fh => exact (keeps_flushHandle hw fh).bind_pure.snd hstart
  | release fh => exact (keeps_release hc.stable hc.dirtySizes hw fh).bind_pure.snd hstart
  | setattr ino size fh =>
    exact (keeps_setattr hc.stable hc.dirtySizes ht hb hw ino size fh).bind_pure.snd hstart
  | openFile ino flags =>
    simp only [Op.exec, bind_pure_run]
    rw [openFile_inodes]
  | lookup parent name =>
    simp only [Op.exec, bind_pure_run]
    rcases lookup_table cfg io parent name s with heq | ⟨p, kind, hp, hdir, heq⟩
    · rw [heq]
    · rw [heq]
      exact ReflTransGen.single (.intern hp (Or.inl hdir) (Or.inl (by simp [Op.names])))
  | readdir ino =>
    simp only [Op.exec, bind_pure_run]
    exact readdir_table cfg io hwf ino
  | create parent name =>
    rw [exec_create]
    have hspec := create_spec cfg io parent name s
    generalize Vfs.create cfg io parent name s = r at hspec
    have hone : ∀ {p : Node} {ino : Nat} {t : InodeTable}, s.inodes.get parent = some p →
        p.kind.isDir = true → s.inodes.intern (p.key ++ name) .file parent = (ino, t) →
        TableSteps cfg io (.create parent name) s s.inodes t := by
      intro p ino t hp hdir hin
      have hstep : TableStep cfg io (.create parent name) s s.inodes
          (s.inodes.intern (p.child name .file) .file parent).2 :=
        .intern hp (Or.inl hdir) (Or.inl (by simp [Op.names]))
      rw [show s.inodes.intern (p.child name .file) .file parent = (ino, t) from hin] at hstep
      exact ReflTransGen.single hstep
    cases hspec with
    | ok a hp hdir hin hs =>
      dsimp only
      rw [hs.inodes]
      exact hone hp hdir hin
    | error e => exact ReflTransGen.refl
    | noFile e hp hdir hin => exact hone hp hdir hin
  | unlink parent name =>
    simp only [Op.exec, bind_pure_run]
    rcases unlink_table cfg io parent name s with heq | ⟨p, ino, hp, hino, heq⟩
    · rw [heq]
    · rw [heq]
      exact ReflTransGen.single (.forget .file hp (by simp [Op.names]) hino)
  | mkdir parent name =>
    simp only [Op.exec, bind_pure_run]
    rcases mkdir_table cfg io parent name s with heq | ⟨p, hp, heq⟩
    · rw [heq]
    · rw [heq]
      exact ReflTransGen.single (.intern hp (Or.inr rfl) (Or.inl (by simp [Op.names])))
  | rmdir parent name =>
    simp only [Op.exec, bind_pure_run]
    rcases rmdir_table cfg io parent name s with heq | ⟨p, ino, hp, hino, heq⟩
    · rw [heq]
    · rw [heq]
      exact ReflTransGen.single (.forget .dir hp (by simp [Op.names]) hino)
  | rename parent name newparent newname =>
    simp only [Op.exec, bind_pure_run]
    exact rename_table cfg io parent name newparent newname s

/-- What every change of the table by an operation keeps is kept by the operation. -/
theorem exec_table_invariant {P : InodeTable → Prop} {o : Op}
    (hP : ∀ t t', TableStep cfg io o s t t' → P t → P t') (hwf : s.inodes.Wf) (h : P s.inodes) :
    P (o.exec cfg io s).2.inodes := by
  have hsteps := exec_table cfg io o hwf
  generalize (o.exec cfg io s).2.inodes = t' at hsteps
  induction hsteps with
  | refl => exact h
  | tail _ hlast ih => exact hP _ _ hlast ih

theorem exec_wf (cfg : VfsConfig) (io : Io) (o : Op) (hwf : s.inodes.Wf) :
    (o.exec cfg io s).2.inodes.Wf :=
  exec_table_invariant (fun _ _ ht h => ht.wf h) hwf hwf

end Table

namespace Mounted

variable {cfg : VfsConfig} {m m' : Mounted} {e : MountEvent}

/-- What every change of the table by an event keeps is kept by the event. -/
theorem table_invariant {P : InodeTable → Prop}
    (hP : ∀ io o t t', e = .op io o → TableStep cfg io o m.vfs t t' → P t → P t')
    (hstep : step cfg m e = some m') (hwf : m.vfs.inodes.Wf) (h : P m.vfs.inodes) :
    P m'.vfs.inodes := by
  cases e with
  | op io o =>
    obtain ⟨-, rfl⟩ := step_op hstep
    exact exec_table_invariant (fun t t' => hP io o t t' rfl) hwf h
  | unmount removed =>
    obtain ⟨-, rfl⟩ := step_unmount hstep
    exact h

theorem step_wf (hstep : step cfg m e = some m') (h : m.vfs.inodes.Wf) : m'.vfs.inodes.Wf :=
  table_invariant (fun _ _ _ _ _ ht hwf => ht.wf hwf) hstep h h

end Mounted

end Rs5cmd
