import Rs5cmd.Mount.Honest

/-!
# Asking a mount for a name

What `getattr` and `lookup` return when no request fails and the listings tell what
the bucket holds. A name is answered from the files with unflushed writes, then from
a fresh listing of its directory, and else from the bucket: as a file when there is
an object under it, as a directory when there is one below it.
-/

namespace Rs5cmd

open Cmd

/-- No request of an operation on the name with this directory key fails, and the
listings are honest. -/
structure Faultless (cfg : VfsConfig) (bucket : Str → Option Stored) (dirKey : Str) (io : Io) :
    Prop where
  stat : io.stat = none
  statAttr : io.statAttr = none
  copy : ∀ i, io.copy i = none
  delete : ∀ i, io.delete i = none
  list : HonestList bucket (cfg.url dirKey) io.list
  listAll : HonestList bucket (cfg.treeUrl dirKey) io.listAll

/-- What such an operation is told by a server with these objects that encodes names by
`enc`, all else being as in `io`. -/
def answering (cfg : VfsConfig) (enc : Str → Str) (objs : List StoredObject) (dirKey : Str)
    (io : Io) : Io :=
  { io with
    stat := none
    statAttr := none
    copy := fun _ => none
    delete := fun _ => none
    list := onePage enc objs (cfg.url dirKey)
    listAll := onePage enc objs (cfg.treeUrl dirKey) }

theorem faultless_answering {cfg : VfsConfig} {bucket : Str → Option Stored} {enc : Str → Str}
    {objs : List StoredObject} (h : Describes objs bucket) (henc : KeepsNames enc objs)
    (dirKey : Str) (io : Io) :
    Faultless cfg bucket dirKey (answering cfg enc objs dirKey io) where
  stat := rfl
  statAttr := rfl
  copy _ := rfl
  delete _ := rfl
  list := honestList_onePage h henc rfl
  listAll := honestList_onePage h henc rfl

section Probe

variable {cfg : VfsConfig} {io : Io} {s : Vfs} {parent ino : Nat} {name : Str} {p n : Node}

/-! ## Attributes -/

/-- The attributes of the file that is stored as `o`. -/
def VfsConfig.storedAttr (cfg : VfsConfig) (ino : Nat) (o : Stored) : Attr :=
  ⟨ino, .file, o.bytes.length, o.modTime.getD cfg.startTime⟩

theorem stat_found {u : Url} {o : Stored} (h : s.bucket u.path = some o) :
    ∃ obj, Vfs.stat none u s = (.ok obj, s) ∧ ∀ ino, cfg.fileAttr ino obj = cfg.storedAttr ino o := by
  simp only [Vfs.stat, get_bind, h]
  refine ⟨_, rfl, fun ino => ?_⟩
  simp [VfsConfig.fileAttr, VfsConfig.storedAttr]

theorem getattr_dir (hn : s.inodes.get ino = some n) (hdir : n.kind = .dir) :
    Vfs.getattr cfg io ino s = (.ok (cfg.dirAttr ino), s) := by
  rw [show Vfs.getattr cfg io ino s = _ from bind_ok (node_ok hn)]
  simp only [hdir]
  rfl

theorem getattr_dirty (hn : s.inodes.get ino = some n) (hfile : n.kind = .file) {e : Nat × Int}
    (hdirty : s.dirtySizes[ino]? = some e) :
    Vfs.getattr cfg io ino s = (.ok ⟨ino, .file, e.1, e.2⟩, s) := by
  rw [show Vfs.getattr cfg io ino s = _ from bind_ok (node_ok hn)]
  simp only [hfile, get_bind, hdirty]
  rfl

theorem getattr_cached (hn : s.inodes.get ino = some n) (hfile : n.kind = .file)
    (hclean : s.dirtySizes[ino]? = none) {a : Attr} (ha : s.cachedAttr cfg io ino = some a) :
    Vfs.getattr cfg io ino s = (.ok a, s) := by
  rw [show Vfs.getattr cfg io ino s = _ from bind_ok (node_ok hn)]
  simp only [hfile, get_bind, hclean, ha]
  rfl

theorem getattr_stored (hn : s.inodes.get ino = some n) (hfile : n.kind = .file)
    (hclean : s.dirtySizes[ino]? = none) (ha : s.cachedAttr cfg io ino = none)
    (hstat : io.statAttr = none) {o : Stored} (ho : s.bucket n.key = some o) :
    ∃ t, Vfs.getattr cfg io ino s = (.ok (cfg.storedAttr ino o), t) := by
  rw [show Vfs.getattr cfg io ino s = _ from bind_ok (node_ok hn)]
  simp only [hfile, get_bind, hclean, ha, cfg.objUrl_eq, ofExcept_ok_bind, hstat]
  have ho' : s.bucket (cfg.url n.key).path = some o := ho
  obtain ⟨obj, hobj, hattr⟩ := stat_found ho'
  rw [bind_ok hobj, ← hattr]
  exact ⟨_, rfl⟩

theorem getattr_missing (hn : s.inodes.get ino = some n) (hfile : n.kind = .file)
    (hclean : s.dirtySizes[ino]? = none) (ha : s.cachedAttr cfg io ino = none)
    (hstat : io.statAttr = none) (hnone : s.bucket n.key = none) :
    ∃ e, Vfs.getattr cfg io ino s = (.error e, s) := by
  rw [show Vfs.getattr cfg io ino s = _ from bind_ok (node_ok hn)]
  simp only [hfile, get_bind, hclean, ha, cfg.objUrl_eq, ofExcept_ok_bind, hstat]
  exact ⟨_, bind_error (stat_missing hnone)⟩

/-- `getattr` can answer: the inode is of a directory, of a file with unflushed
writes or known attributes, or of one that has an object. -/
def Vfs.Answers (s : Vfs) (cfg : VfsConfig) (io : Io) (ino : Nat) : Prop :=
  ∃ n, s.inodes.get ino = some n ∧ (n.kind = .dir ∨ s.dirtySizes[ino]? ≠ none ∨
    s.cachedAttr cfg io ino ≠ none ∨ s.bucket n.key ≠ none)

theorem getattr_ok_iff (hstat : io.statAttr = none) :
    (∃ a, (Vfs.getattr cfg io ino s).1 = .ok a) ↔ s.Answers cfg io ino := by
  cases hn : s.inodes.get ino with
  | none =>
    obtain ⟨e, he⟩ := node_none hn
    have hrun : Vfs.getattr cfg io ino s = (.error e, s) := bind_error he
    refine iff_of_false ?_ ?_
    · rintro ⟨a, ha⟩
      rw [hrun] at ha
      cases ha
    · rintro ⟨n, hn', -⟩
      rw [hn] at hn'
      cases hn'
  | some n =>
    cases hkind : n.kind with
    | dir => exact iff_of_true ⟨_, by rw [getattr_dir hn hkind]⟩ ⟨n, hn, Or.inl hkind⟩
    | file =>
      cases hdirty : s.dirtySizes[ino]? with
      | some e =>
        refine iff_of_true ⟨_, by rw [getattr_dirty hn hkind hdirty]⟩ ⟨n, hn, Or.inr (Or.inl ?_)⟩
        rw [hdirty]
        simp
      | none =>
        cases ha : s.cachedAttr cfg io ino with
        | some a =>
          refine iff_of_true ⟨a, by rw [getattr_cached hn hkind hdirty ha]⟩ ⟨n, hn, ?_⟩
          exact Or.inr (Or.inr (Or.inl (by rw [ha]; simp)))
        | none =>
          cases ho : s.bucket n.key with
          | some o =>
            obtain ⟨t, ht⟩ := getattr_stored hn hkind hdirty ha hstat ho
            refine iff_of_true ⟨_, by rw [ht]⟩ ⟨n, hn, Or.inr (Or.inr (Or.inr ?_))⟩
            rw [ho]
            simp
          | none =>
            obtain ⟨e, he⟩ := getattr_missing hn hkind hdirty ha hstat ho
            refine iff_of_false ?_ ?_
            · rintro ⟨a, ha'⟩
              rw [he] at ha'
              cases ha'
            · rintro ⟨m, hm, hany⟩
              obtain rfl : n = m := Option.some.inj (hn.symm.trans hm)
              simp [hkind, hdirty, ha, ho] at hany

/-! ## Names -/

/-- Something in the bucket stands for the name: an object under it or one below it. -/
def Backed (cfg : VfsConfig) (bucket : Str → Option Stored) (fileKey : Str) : Prop :=
  bucket fileKey ≠ none ∨ ∃ key, cfg.Lists bucket (fileKey ++ ['/']) key

/-- The name is that of a file with unflushed writes. -/
def Vfs.Unflushed (s : Vfs) (p : Node) (name : Str) : Prop :=
  ∃ ino, s.inodes.lookupKey (p.key ++ name) = some ino ∧ s.dirtySizes[ino]? ≠ none

theorem pendingOrCached_unflushed (hino : s.inodes.lookupKey (p.key ++ name) = some ino)
    (hdirty : s.dirtySizes[ino]? ≠ none) :
    s.pendingOrCached cfg io parent (p.key ++ name) name = some ino := by
  have hcontains : s.dirtySizes.contains ino = true := by
    rw [Std.ExtTreeMap.contains_eq_isSome_getElem?]
    exact Option.isSome_iff_ne_none.mpr hdirty
  simp only [Vfs.pendingOrCached, hino, Option.bind_some, hcontains, if_true]

theorem pendingOrCached_flushed (h : ¬ s.Unflushed p name) :
    s.pendingOrCached cfg io parent (p.key ++ name) name =
      (s.cachedDir cfg io parent).bind fun es => (es.find? fun e => e.name = name).map DirEntry.ino := by
  have hnone : ((s.inodes.lookupKey (p.key ++ name)).bind fun ino =>
      if s.dirtySizes.contains ino then some ino else none) = none := by
    rw [Option.bind_eq_none_iff]
    intro ino hino
    refine if_neg fun hcontains => h ⟨ino, hino, ?_⟩
    rw [Std.ExtTreeMap.contains_eq_isSome_getElem?] at hcontains
    exact Option.isSome_iff_ne_none.mp hcontains
  simp only [Vfs.pendingOrCached, hnone]

theorem lookup_pendingOrCached (hp : s.inodes.get parent = some p) (hdir : p.kind = .dir)
    (hino : s.pendingOrCached cfg io parent (p.key ++ name) name = some ino) :
    Vfs.lookup cfg io parent name s = Vfs.getattr cfg io ino s := by
  rw [show Vfs.lookup cfg io parent name s = _ from bind_ok (node_ok hp)]
  simp only [hdir, NodeKind.isDir, Bool.not_true, Bool.false_eq_true, if_false, get_bind, hino]

theorem lookup_notDir (hp : s.inodes.get parent = some p) (hfile : p.kind = .file) :
    Vfs.lookup cfg io parent name s = (.error (notFound name), s) := by
  rw [show Vfs.lookup cfg io parent name s = _ from bind_ok (node_ok hp)]
  simp only [hfile, NodeKind.isDir, Bool.not_false, if_true, fail_run]

section Direct

variable (hp : s.inodes.get parent = some p) (hdir : p.kind = .dir)
  (hnone : s.pendingOrCached cfg io parent (p.key ++ name) name = none)
  (hio : Faultless cfg s.bucket (p.key ++ name ++ ['/']) io)

include hp hdir hnone hio

theorem lookup_file {o : Stored} (ho : s.bucket (p.key ++ name) = some o) :
    ∃ t, Vfs.lookup cfg io parent name s =
      (.ok (cfg.storedAttr (s.inodes.intern (p.key ++ name) .file parent).1 o), t) := by
  rw [show Vfs.lookup cfg io parent name s = _ from bind_ok (node_ok hp)]
  have ho' : s.bucket (cfg.url (p.key ++ name)).path = some o := ho
  obtain ⟨obj, hobj, hattr⟩ := stat_found ho'
  simp only [hdir, NodeKind.isDir, Bool.not_true, Bool.false_eq_true, if_false, get_bind, hnone,
    cfg.objUrl_eq, ofExcept_ok_bind, attempt_bind, hio.stat, hobj]
  rw [← hattr]
  exact ⟨_, rfl⟩

/-- Without an object under the name, it is a directory when something is below it. -/
theorem lookup_noFile (hfile : s.bucket (p.key ++ name) = none) :
    (∃ key, cfg.Lists s.bucket (p.key ++ name ++ ['/']) key) ∧
        (∃ t, Vfs.lookup cfg io parent name s =
          (.ok (cfg.dirAttr (s.inodes.intern (p.key ++ name ++ ['/']) .dir parent).1), t)) ∨
      (¬ ∃ key, cfg.Lists s.bucket (p.key ++ name ++ ['/']) key) ∧
        Vfs.lookup cfg io parent name s = (.error (notFound name), s) := by
  rw [show Vfs.lookup cfg io parent name s = _ from bind_ok (node_ok hp)]
  have hmissing : Vfs.stat none (cfg.url (p.key ++ name)) s = _ := stat_missing hfile
  have hisDir : p.kind.isDir = true := by
    rw [hdir]
    rfl
  have hisNotFound : ∀ x, (notFound x).isNotFound = true := fun _ => rfl
  obtain ⟨b, hexists, hb⟩ := hio.list.prefixExists
  simp only [hisDir, Bool.not_true, Bool.false_eq_true, if_false, get_bind, hnone, cfg.objUrl_eq,
    ofExcept_ok_bind, attempt_bind, hio.stat, hmissing, hisNotFound, if_true]
  cases b with
  | true =>
    refine Or.inl ⟨hb.mp rfl, ?_⟩
    rw [bind_ok hexists]
    exact ⟨_, rfl⟩
  | false =>
    refine Or.inr ⟨fun hany => absurd (hb.mpr hany) (by simp), ?_⟩
    rw [bind_ok hexists]
    rfl

theorem lookup_direct_ok_iff :
    (∃ a, (Vfs.lookup cfg io parent name s).1 = .ok a) ↔ Backed cfg s.bucket (p.key ++ name) := by
  cases hfile : s.bucket (p.key ++ name) with
  | some o =>
    obtain ⟨t, ht⟩ := lookup_file hp hdir hnone hio hfile
    exact iff_of_true ⟨_, by rw [ht]⟩ (Or.inl (by rw [hfile]; simp))
  | none =>
    rcases lookup_noFile hp hdir hnone hio hfile with ⟨hany, t, ht⟩ | ⟨hempty, ht⟩
    · exact iff_of_true ⟨_, by rw [ht]⟩ (Or.inr hany)
    · refine iff_of_false ?_ ?_
      · rintro ⟨a, ha⟩
        rw [ht] at ha
        cases ha
      · rintro (hbucket | hany)
        · exact hbucket hfile
        · exact hempty hany

end Direct

end Probe

end Rs5cmd
