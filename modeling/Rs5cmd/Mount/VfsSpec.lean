import Rs5cmd.Mount.Vfs

/-!
# What the operations of the VFS leave alone

An assertion about the VFS that does not look at what an operation changes is
kept by it. The lemmas below say this once for each operation, in terms of the
few kinds of change it consists of.
-/

namespace Rs5cmd

open Cmd

/-! ## Kinds of change -/

/-- The assertion does not look at the attribute, directory and size caches. -/
structure CacheFree (I : Vfs → Prop) : Prop where
  attrCache : ∀ s c, I s → I { s with attrCache := c }
  dirCache : ∀ s c, I s → I { s with dirCache := c }
  dirtySizes : ∀ s c, I s → I { s with dirtySizes := c }

/-- The assertion does not look at the attribute cache. -/
def AttrFree (I : Vfs → Prop) : Prop := ∀ s c, I s → I { s with attrCache := c }

/-- The assertion does not look at the sizes of unflushed files. -/
def DirtyFree (I : Vfs → Prop) : Prop := ∀ s c, I s → I { s with dirtySizes := c }

/-- The assertion does not look at the attribute cache, and survives listings that
are dropped from the directory cache, or stored there with each name once. -/
structure CacheStable (I : Vfs → Prop) : Prop where
  attrCache : AttrFree I
  dirDrop : ∀ s (d : Std.ExtTreeMap Nat (List DirEntry × Nat) compare),
    (∀ (i : Nat) e, d[i]? = some e → s.dirCache[i]? = some e) → I s → I { s with dirCache := d }
  dirStore : ∀ s ino (es : List DirEntry) t, (es.map DirEntry.name).Nodup → I s →
    I { s with dirCache := s.dirCache.insert ino (es, t) }

theorem CacheFree.stable {I : Vfs → Prop} (h : CacheFree I) : CacheStable I where
  attrCache := h.attrCache
  dirDrop s d _ := h.dirCache s d
  dirStore s _ _ _ _ := h.dirCache s _

/-- The assertion does not look at the bucket. -/
def BucketFree (I : Vfs → Prop) : Prop := ∀ s b, I s → I { s with bucket := b }

/-- The assertion does not look at the inode table. -/
def InodeFree (I : Vfs → Prop) : Prop := ∀ s t, I s → I { s with inodes := t }

/-- The assertion survives new inodes. -/
def InternStable (I : Vfs → Prop) : Prop :=
  ∀ s key kind parent, I s → I { s with inodes := (s.inodes.intern key kind parent).2 }

/-- The assertion survives forgotten inodes. -/
def ForgetStable (I : Vfs → Prop) : Prop := ∀ s ino, I s → I { s with inodes := s.inodes.forget ino }

/-- The assertion does not look at the cache files of truncations and of empty
objects, nor at how many handles have been numbered. -/
structure TempFree (I : Vfs → Prop) : Prop where
  nextFh : ∀ s, I s → I { s with nextFh := s.nextFh + 1 }
  temp : ∀ s p b, (∀ fh, p ≠ .h fh) → I s → I { s with cache := Function.update s.cache p b }

/-- The assertion does not look at where writers upload to. -/
def DstFree (I : Vfs → Prop) : Prop :=
  ∀ s fh ino w url, s.handles[fh]? = some ⟨ino, .write w⟩ → I s →
    I { s with handles := s.handles.insert fh ⟨ino, .write { w with dst := url }⟩ }

theorem InodeFree.internStable {I : Vfs → Prop} (h : InodeFree I) : InternStable I :=
  fun s _ _ _ => h s _

theorem InodeFree.forgetStable {I : Vfs → Prop} (h : InodeFree I) : ForgetStable I :=
  fun s _ => h s _

theorem mem_dirCache_erase {s : Vfs} {i j : Nat} {e : List DirEntry × Nat}
    (h : (s.dirCache.erase i)[j]? = some e) : s.dirCache[j]? = some e := by
  rw [Std.ExtTreeMap.getElem?_erase] at h
  split at h
  · cases h
  · exact h

section Keeps

variable {I : Vfs → Prop} {cfg : VfsConfig} {io : Io}

/-! ## Helpers -/

theorem keeps_node (ino : Nat) : Keeps I (Vfs.node ino) := by
  refine Keeps.bind keeps_get ?_
  intro s
  split
  · exact keeps_pure _
  · exact keeps_fail _

theorem keeps_storeAttr (h : AttrFree I) (a : Attr) : Keeps I (Vfs.storeAttr io a) :=
  keeps_modify fun s => h s _

theorem keeps_invalidateAttr (h : AttrFree I) (ino : Nat) : Keeps I (Vfs.invalidateAttr ino) :=
  keeps_modify fun s => h s _

theorem keeps_storeDir (h : CacheStable I) (ino : Nat) {es : List DirEntry}
    (hes : (es.map DirEntry.name).Nodup) : Keeps I (Vfs.storeDir io ino es) :=
  keeps_modify fun s => h.dirStore s ino es _ hes

theorem keeps_invalidateDir (h : CacheStable I) (ino : Nat) : Keeps I (Vfs.invalidateDir ino) :=
  keeps_modify fun s => h.dirDrop s _ fun _ _ => mem_dirCache_erase

theorem keeps_clearDirtySize (h : DirtyFree I) (ino : Nat) : Keeps I (Vfs.clearDirtySize ino) :=
  keeps_modify fun s => h s _

theorem keeps_intern (h : InternStable I) (key : Str) (kind : NodeKind) (parent : Nat) :
    Keeps I (Vfs.intern key kind parent) :=
  fun s hs => h s key kind parent hs

theorem keeps_forget (h : ForgetStable I) (ino : Nat) : Keeps I (Vfs.forget ino) :=
  keeps_modify fun s => h s ino

theorem keeps_stat (fault : Option StorageError) (u : Url) : Keeps I (Vfs.stat fault u) := by
  unfold Vfs.stat
  split
  · exact keeps_fail _
  · refine Keeps.bind keeps_get ?_
    intro s
    split
    · exact keeps_pure _
    · exact keeps_fail _

theorem keeps_request {apply : VfsM Unit} (h : Keeps I apply) (fault : RequestFault) :
    Keeps I (Vfs.request fault apply) := by
  unfold Vfs.request
  split
  · exact h
  · split
    · exact h.bind fun _ => keeps_fail _
    · exact keeps_fail _

theorem keeps_putObject (h : BucketFree I) (key : Str) (o : Option Stored) :
    Keeps I (Vfs.putObject key o) :=
  keeps_modify fun s => h s _

theorem keeps_delete (h : BucketFree I) (fault : RequestFault) (u : Url) :
    Keeps I (Vfs.delete fault u) :=
  keeps_request (keeps_putObject h _ _) fault

theorem keeps_upload (h : BucketFree I) (file : CacheFile) (dst : Url) :
    Keeps I (Vfs.upload io file dst) := by
  refine Keeps.bind keeps_get ?_
  intro s
  split
  · exact keeps_fail _
  · exact keeps_request (keeps_putObject h _ _) _

theorem keeps_copy (h : BucketFree I) (fault : RequestFault) (src dst : Url) :
    Keeps I (Vfs.copy fault io src dst) := by
  refine Keeps.bind keeps_get ?_
  intro s
  split
  · exact keeps_fail _
  · exact keeps_request (keeps_putObject h _ _) _

theorem keeps_prefixExists (objs : List Object) (dirKey : Str) :
    Keeps I (Vfs.prefixExists cfg objs dirKey) := by
  refine Keeps.bind (keeps_ofExcept _) ?_
  intro _
  split
  · exact keeps_pure _
  · split
    · split
      · exact keeps_pure _
      · exact keeps_fail _
    · exact keeps_pure _

theorem keeps_dirIsEmptyLoop (dirKey : Str) (objs : List Object) :
    Keeps I (Vfs.dirIsEmptyLoop dirKey objs) := by
  induction objs with
  | nil => exact keeps_pure _
  | cons obj objs ih =>
    unfold Vfs.dirIsEmptyLoop
    split
    · split
      · exact keeps_pure _
      · exact keeps_fail _
    · split
      · split
        · exact keeps_pure _
        · exact ih
      · exact ih

theorem keeps_dirIsEmpty (objs : List Object) (dirKey : Str) :
    Keeps I (Vfs.dirIsEmpty cfg objs dirKey) :=
  Keeps.bind (keeps_ofExcept _) fun _ => keeps_dirIsEmptyLoop dirKey objs

/-! ## Operations -/

theorem keeps_getattr (h : AttrFree I) (ino : Nat) : Keeps I (Vfs.getattr cfg io ino) := by
  refine Keeps.bind (keeps_node ino) ?_
  intro n
  split
  · exact keeps_pure _
  · refine Keeps.bind keeps_get ?_
    intro s
    split
    · exact keeps_pure _
    · split
      · exact keeps_pure _
      · refine Keeps.bind (keeps_ofExcept _) fun _ => Keeps.bind (keeps_stat _ _) fun _ => ?_
        exact (keeps_storeAttr h _).bind_pure

theorem keeps_lookup (h : AttrFree I) (hin : InternStable I) (parent : Nat) (name : Str) :
    Keeps I (Vfs.lookup cfg io parent name) := by
  refine Keeps.bind (keeps_node parent) ?_
  intro p
  split
  · exact keeps_fail _
  · refine Keeps.bind keeps_get ?_
    intro s
    split
    · exact keeps_getattr h _
    · refine Keeps.bind (keeps_ofExcept _) fun _ => Keeps.bind (keeps_stat _ _).attempt ?_
      intro r
      split
      · refine Keeps.bind (keeps_intern hin _ _ _) fun _ => ?_
        exact (keeps_storeAttr h _).bind_pure
      · split
        · refine Keeps.bind (keeps_prefixExists _ _) ?_
          intro b
          split
          · exact (keeps_intern hin _ _ _).bind_pure
          · exact keeps_fail _
        · exact keeps_fail _

theorem keeps_readdirStep (hin : InternStable I) (ino : Nat) (n : Node) (acc : Vfs.Listing)
    (obj : Object) : Keeps I (Vfs.readdirStep cfg ino n acc obj) := by
  unfold Vfs.readdirStep
  split
  · split
    · exact keeps_pure _
    · exact keeps_fail _
  · split
    · exact keeps_pure _
    · dsimp only
      split
      · exact keeps_pure _
      · split
        · split
          · exact keeps_pure _
          · exact (keeps_intern hin _ _ _).bind_pure
        · split
          · exact keeps_pure _
          · exact (keeps_intern hin _ _ _).bind_pure
        · exact keeps_pure _

theorem keeps_readdirLoop (hin : InternStable I) (ino : Nat) (n : Node) (objs : List Object)
    (acc : Vfs.Listing) : Keeps I (Vfs.readdirLoop cfg ino n objs acc) := by
  induction objs generalizing acc with
  | nil => exact keeps_pure _
  | cons obj objs ih =>
    refine Keeps.bind (keeps_readdirStep hin ino n acc obj) ?_
    intro r
    split
    · exact ih _
    · exact keeps_pure _

/-- Each name is listed once and is among those seen. -/
structure Vfs.Listing.Distinct (acc : Vfs.Listing) : Prop where
  nodup : (acc.entries.map DirEntry.name).Nodup
  seen : ∀ e ∈ acc.entries, e.name ∈ acc.seen

theorem Vfs.Listing.Distinct.add {acc : Vfs.Listing} (h : acc.Distinct) {name : Str}
    (hnew : name ∉ acc.seen) (ino : Nat) (kind : NodeKind) (attrs : List Attr) :
    Vfs.Listing.Distinct ⟨acc.entries ++ [⟨ino, name, kind⟩], attrs, name :: acc.seen⟩ where
  nodup := by
    rw [List.map_append, List.map_singleton]
    refine List.Nodup.append h.nodup (List.nodup_singleton _) ?_
    intro x hx hname
    obtain ⟨e, he, rfl⟩ := List.mem_map.mp hx
    have heq : e.name = name := List.mem_singleton.mp hname
    exact hnew (heq ▸ h.seen e he)
  seen := by
    intro e he
    rcases List.mem_append.mp he with he | he
    · exact List.mem_cons_of_mem _ (h.seen e he)
    · rw [List.mem_singleton.mp he]
      exact List.mem_cons_self

theorem readdirStep_distinct {acc : Vfs.Listing} (h : acc.Distinct) (ino : Nat) (n : Node)
    (obj : Object) :
    Yields (Vfs.readdirStep cfg ino n acc obj) fun r => ∀ acc', r = some acc' → acc'.Distinct := by
  have hsame : ∀ acc', some acc = some acc' → acc'.Distinct := by
    intro acc' heq
    obtain rfl := Option.some.inj heq
    exact h
  -- one more name, which was not seen
  have hadd : ∀ (m : VfsM Nat) (name : Str) (kind : NodeKind) (attrs : Nat → List Attr),
      name ∉ acc.seen → Yields (do
        let cino ← m
        return some (⟨acc.entries ++ [⟨cino, name, kind⟩], attrs cino, name :: acc.seen⟩ : Vfs.Listing))
        fun r => ∀ acc', r = some acc' → acc'.Distinct := by
    intro m name kind attrs hnew
    refine Yields.bind (yields_true m) fun cino _ => yields_pure ?_
    intro acc' heq
    obtain rfl := Option.some.inj heq
    exact h.add hnew cino kind (attrs cino)
  unfold Vfs.readdirStep
  split
  · split
    · exact yields_pure nofun
    · exact yields_fail _ _
  · split
    · exact yields_pure hsame
    · dsimp only
      split
      · exact yields_pure hsame
      · split
        · split
          · exact yields_pure hsame
          · rename_i hnot
            exact hadd _ _ _ (fun cino => acc.attrs ++ [cfg.dirAttr cino]) fun hin => hnot (Or.inr hin)
        · split
          · exact yields_pure hsame
          · rename_i hnot
            exact hadd _ _ _ (fun cino => acc.attrs ++ [cfg.fileAttr cino obj]) hnot
        · exact yields_pure hsame

theorem readdirLoop_distinct {acc : Vfs.Listing} (h : acc.Distinct) (ino : Nat) (n : Node)
    (objs : List Object) :
    Yields (Vfs.readdirLoop cfg ino n objs acc) Vfs.Listing.Distinct := by
  induction objs generalizing acc with
  | nil => exact yields_pure h
  | cons obj objs ih =>
    refine Yields.bind (readdirStep_distinct h ino n obj) ?_
    intro r hr
    split
    · exact ih (hr _ rfl)
    · exact yields_pure h

theorem mergeDirty_nodup {acc : Vfs.Listing} (h : acc.Distinct) (children : List (Nat × Str)) :
    ((Vfs.mergeDirty acc children).map DirEntry.name).Nodup := by
  induction children generalizing acc with
  | nil => exact h.nodup
  | cons c children ih =>
    rw [Vfs.mergeDirty]
    split
    · exact ih h
    · rename_i hnew
      exact ih (h.add hnew c.1 .file acc.attrs)

theorem Vfs.Listing.distinct_empty : Vfs.Listing.Distinct {} := ⟨List.nodup_nil, nofun⟩

theorem keeps_readdir (h : CacheStable I) (hin : InternStable I) (ino : Nat) :
    Keeps I (Vfs.readdir cfg io ino) := by
  refine Keeps.bind (keeps_node ino) ?_
  intro n
  split
  · exact keeps_fail _
  · refine Keeps.bind keeps_get ?_
    intro s
    split
    · exact keeps_pure _
    · refine Keeps.bind (keeps_ofExcept _) fun _ => ?_
      refine (keeps_readdirLoop hin ino n io.list {}).bind_yields
        (readdirLoop_distinct Vfs.Listing.distinct_empty ino n io.list) ?_
      intro acc hacc
      refine Keeps.bind keeps_get fun u => ?_
      refine Keeps.bind (keeps_forEach _ fun a _ => keeps_storeAttr h.attrCache a) fun _ => ?_
      exact (keeps_storeDir h ino (mergeDirty_nodup hacc _)).bind_pure

theorem keeps_readHandle (h : AttrFree I) (ino fh offset size : Nat) :
    Keeps I (Vfs.readHandle cfg io ino fh offset size) := by
  refine Keeps.bind keeps_get ?_
  intro s
  split
  · exact keeps_ofExcept _
  · unfold Vfs.readWriter
    split
    · exact keeps_pure _
    · split
      · exact keeps_fail _
      · exact keeps_get.bind_pure
  · refine Keeps.bind (keeps_node _) ?_
    intro n
    split
    · exact keeps_fail _
    · refine Keeps.bind (keeps_getattr h _) ?_
      intro a
      split
      · exact keeps_pure _
      · exact Keeps.bind (keeps_ofExcept _) fun _ => keeps_ofExcept _

theorem keeps_allocFh (h : TempFree I) : Keeps I Vfs.allocFh := fun s hs => h.nextFh s hs

theorem keeps_setCache (h : TempFree I) {p : CacheFile} (hp : ∀ fh, p ≠ .h fh)
    (b : Option (List UInt8)) : Keeps I (Vfs.setCache p b) :=
  keeps_modify fun s => h.temp s p b hp

theorem keeps_openCacheFile (h : TempFree I) {p : CacheFile} (hp : ∀ fh, p ≠ .h fh)
    (truncate : Bool) : Keeps I (Vfs.openCacheFile io p truncate) := by
  unfold Vfs.openCacheFile
  split
  · exact keeps_fail _
  · refine Keeps.bind keeps_get ?_
    intro s
    split
    · exact keeps_setCache h hp _
    · exact keeps_setCache h hp _

theorem keeps_downloadTo (h : TempFree I) {p : CacheFile} (hp : ∀ fh, p ≠ .h fh) (src : Url) :
    Keeps I (Vfs.downloadTo io src p) := by
  unfold Vfs.downloadTo
  split
  · exact keeps_fail _
  · refine Keeps.bind keeps_get ?_
    intro s
    split
    · exact keeps_setCache h hp _
    · exact keeps_fail _

theorem keeps_truncateObjectInner (ht : TempFree I) (hb : BucketFree I) {p : CacheFile}
    (hp : ∀ fh, p ≠ .h fh) (dst : Url) (newSize : Nat) :
    Keeps I (Vfs.truncateObjectInner io dst p newSize) := by
  refine Keeps.bind ?_ fun _ => Keeps.bind (keeps_openCacheFile ht hp false) fun _ => ?_
  · refine Keeps.bind (keeps_stat _ _).attempt ?_
    intro r
    split
    · exact keeps_downloadTo ht hp dst
    · split
      · exact keeps_setCache ht hp _
      · exact keeps_fail _
  · split
    · exact keeps_fail _
    · exact keeps_fail _
    · refine Keeps.bind keeps_get fun s => Keeps.bind (keeps_setCache ht hp _) fun _ => ?_
      exact keeps_upload hb p dst

theorem keeps_truncateObject (h : AttrFree I) (ht : TempFree I) (hb : BucketFree I)
    (ino newSize : Nat) : Keeps I (Vfs.truncateObject cfg io ino newSize) := by
  refine Keeps.bind (keeps_node _) fun _ => Keeps.bind (keeps_ofExcept _) fun dst => ?_
  refine Keeps.bind (keeps_allocFh ht) fun id => ?_
  have hp : ∀ fh, CacheFile.t id ≠ .h fh := nofun
  refine Keeps.bind (keeps_truncateObjectInner ht hb hp dst newSize).attempt fun _ => ?_
  refine Keeps.bind (keeps_setCache ht hp _) fun _ => Keeps.bind (keeps_ofExcept _) fun _ => ?_
  exact keeps_storeAttr h _

theorem keeps_dropFile (h : AttrFree I) (hd : DirtyFree I) (hf : ForgetStable I) (fileKey : Str) :
    Keeps I (Vfs.dropFile fileKey) := by
  refine Keeps.bind keeps_get fun s => ?_
  split
  · refine Keeps.bind (keeps_invalidateAttr h _) fun _ => ?_
    exact Keeps.bind (keeps_clearDirtySize hd _) fun _ => keeps_forget hf _
  · exact keeps_pure _

theorem keeps_unlink (h : CacheStable I) (hd : DirtyFree I) (hb : BucketFree I)
    (hf : ForgetStable I) (parent : Nat) (name : Str) : Keeps I (Vfs.unlink cfg io parent name) := by
  refine Keeps.bind (keeps_node _) fun _ => Keeps.bind (keeps_ofExcept _) fun _ => ?_
  refine Keeps.bind (keeps_delete hb _ _) fun _ => Keeps.bind (keeps_dropFile h.attrCache hd hf _) fun _ => ?_
  exact keeps_invalidateDir h _

theorem keeps_putEmptyObject (ht : TempFree I) (hb : BucketFree I) (key : Str) :
    Keeps I (Vfs.putEmptyObject cfg io key) := by
  refine Keeps.bind (keeps_ofExcept _) fun url => Keeps.bind (keeps_allocFh ht) fun id => ?_
  have hp : ∀ fh, CacheFile.e id ≠ .h fh := nofun
  split
  · exact keeps_fail _
  · refine Keeps.bind (keeps_setCache ht hp _) fun _ => ?_
    refine Keeps.bind (keeps_upload hb _ _).attempt fun _ => ?_
    exact Keeps.bind (keeps_setCache ht hp _) fun _ => keeps_ofExcept _

theorem keeps_mkdir (h : CacheStable I) (ht : TempFree I) (hb : BucketFree I) (hin : InternStable I)
    (parent : Nat) (name : Str) : Keeps I (Vfs.mkdir cfg io parent name) := by
  refine Keeps.bind (keeps_node _) fun _ => Keeps.bind (keeps_ofExcept _) fun _ => ?_
  refine Keeps.bind (keeps_stat _ _).attempt ?_
  intro r
  split
  · exact keeps_fail _
  · split
    · exact keeps_fail _
    · refine Keeps.bind (keeps_prefixExists _ _) ?_
      intro b
      split
      · exact keeps_fail _
      · refine Keeps.bind (keeps_putEmptyObject ht hb _) fun _ => ?_
        refine Keeps.bind (keeps_intern hin _ _ _) fun _ => ?_
        exact (keeps_invalidateDir h _).bind_pure

theorem keeps_rmdir (h : CacheStable I) (hb : BucketFree I) (hf : ForgetStable I) (parent : Nat)
    (name : Str) : Keeps I (Vfs.rmdir cfg io parent name) := by
  refine Keeps.bind (keeps_node _) fun _ => Keeps.bind (keeps_dirIsEmpty _ _) ?_
  intro b
  split
  · exact keeps_fail _
  · refine Keeps.bind (keeps_ofExcept _) fun _ => Keeps.bind (keeps_delete hb _ _) fun _ => ?_
    refine Keeps.bind keeps_get fun s => ?_
    split
    · refine Keeps.bind (keeps_invalidateDir h _) fun _ => Keeps.bind (keeps_forget hf _) fun _ => ?_
      exact keeps_invalidateDir h _
    · exact keeps_invalidateDir h _

/-! ## Renames -/

theorem keeps_moveFile (hb : BucketFree I) (oldFile newFile : Str) :
    Keeps I (Vfs.moveFile cfg io oldFile newFile) := by
  refine Keeps.bind (keeps_ofExcept _) fun _ => Keeps.bind (keeps_ofExcept _) fun _ => ?_
  exact Keeps.bind (keeps_copy hb _ _ _) fun _ => keeps_delete hb _ _

theorem keeps_listedKeys (objs : List Object) : Keeps I (Vfs.listedKeys objs) := by
  induction objs with
  | nil => exact keeps_pure _
  | cons obj objs ih =>
    unfold Vfs.listedKeys
    split
    · split
      · exact keeps_pure _
      · exact keeps_fail _
    · exact ih.bind_pure

theorem keeps_moveTree (hb : BucketFree I) (name oldPrefix newPrefix : Str) :
    Keeps I (Vfs.moveTree cfg io name oldPrefix newPrefix) := by
  refine Keeps.bind (keeps_prefixExists _ _) ?_
  intro b
  split
  · exact keeps_fail _
  · refine Keeps.bind (keeps_listedKeys _) fun keys => Keeps.bind ?_ fun _ => ?_
    · refine keeps_forEach _ ?_
      intro e _
      refine Keeps.bind (keeps_ofExcept _) fun _ => Keeps.bind (keeps_ofExcept _) fun _ => ?_
      exact keeps_copy hb _ _ _
    · refine keeps_forEach _ ?_
      intro e _
      exact Keeps.bind (keeps_ofExcept _) fun _ => keeps_delete hb _ _

end Keeps

/-! ## Requests that change nothing -/

theorem stat_run (fault : Option StorageError) (u : Url) (s : Vfs) :
    Vfs.stat fault u s = ((Vfs.stat fault u s).1, s) := by
  have hkeep := (keeps_stat (I := fun t => t = s) fault u).snd rfl
  exact Prod.ext rfl hkeep

theorem prefixExists_run (cfg : VfsConfig) (objs : List Object) (dirKey : Str) (s : Vfs) :
    (Vfs.prefixExists cfg objs dirKey s).2 = s :=
  (keeps_prefixExists (I := fun t => t = s) objs dirKey).snd rfl

theorem dirIsEmpty_run (cfg : VfsConfig) (objs : List Object) (dirKey : Str) (s : Vfs) :
    (Vfs.dirIsEmpty cfg objs dirKey s).2 = s :=
  (keeps_dirIsEmpty (I := fun t => t = s) objs dirKey).snd rfl

end Rs5cmd
