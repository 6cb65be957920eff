import Rs5cmd.Mount.Listing
import Rs5cmd.Theorems.Clobber

/-!
# One view of the namespace

`lookup` and `readdir` show the bucket together with the files that have unflushed
writes and with fresh listings. `mkdir`, `rmdir` and `rename` ask the bucket only. So
a name that resolves can be made again or be missing for a rename, and a directory
that shows a file can be removed. The views agree in a state exactly when the bucket
has an object for each name that is answered without it.
-/

namespace Rs5cmd

open Cmd

section OneView

variable {cfg : VfsConfig} {io : Io} {s : Vfs} {parent newparent dir : Nat} {name newname : Str}
  {p np n : Node}

/-! ## Lookups -/

/-- The name resolves. -/
def Vfs.Resolves (s : Vfs) (cfg : VfsConfig) (io : Io) (parent : Nat) (name : Str) : Prop :=
  ∃ a, (Vfs.lookup cfg io parent name s).1 = .ok a

theorem resolves_of_some (hp : s.inodes.get parent = some p) (hdir : p.kind = .dir)
    (hstat : io.statAttr = none) {ino : Nat}
    (hino : s.pendingOrCached cfg io parent (p.key ++ name) name = some ino) :
    s.Resolves cfg io parent name ↔ s.Answers cfg io ino := by
  unfold Vfs.Resolves
  rw [lookup_pendingOrCached hp hdir hino]
  exact getattr_ok_iff hstat

theorem not_resolves_of_file (hp : s.inodes.get parent = some p) (hfile : p.kind = .file) :
    ¬ s.Resolves cfg io parent name := by
  rintro ⟨a, ha⟩
  rw [lookup_notDir hp hfile] at ha
  cases ha

/-! ## What the mutations ask -/

theorem upload_error {file : CacheFile} {dst : Url} {e : MountError}
    (h : (Vfs.upload io file dst s).1 = .error e) : e ≠ .alreadyExists := by
  rintro rfl
  unfold Vfs.upload at h
  rw [get_bind] at h
  cases hfile : s.cache file with
  | none =>
    rw [hfile] at h
    cases h
  | some bytes =>
    rw [hfile] at h
    rcases hup : io.upload with _ | ⟨e, _ | _⟩
    · rw [hup] at h
      cases h
    · rw [hup] at h
      cases h
    · rw [hup] at h
      cases h

theorem putEmptyObject_error {key : Str} {e : MountError}
    (h : (Vfs.putEmptyObject cfg io key s).1 = .error e) : e ≠ .alreadyExists := by
  unfold Vfs.putEmptyObject at h
  rw [cfg.objUrl_eq, ofExcept_ok_bind] at h
  cases hopen : io.openCache with
  | some e' =>
    simp only [hopen] at h
    rintro rfl
    cases h
  | none =>
    simp only [hopen] at h
    exact upload_error h

/-- `mkdir` finds that the name exists when the bucket has something for it. -/
theorem mkdir_exists_iff (hp : s.inodes.get parent = some p)
    (hio : Faultless cfg s.bucket (p.key ++ name ++ ['/']) io) :
    (Vfs.mkdir cfg io parent name s).1 = .error .alreadyExists ↔
      Backed cfg s.bucket (p.key ++ name) := by
  rw [show Vfs.mkdir cfg io parent name s = _ from bind_ok (node_ok hp)]
  simp only [cfg.objUrl_eq, ofExcept_ok_bind, attempt_bind, hio.stat]
  cases hfile : s.bucket (p.key ++ name) with
  | some o =>
    have hfile' : s.bucket (cfg.url (p.key ++ name)).path = some o := hfile
    obtain ⟨obj, hobj⟩ := stat_none hfile'
    rw [hobj]
    exact iff_of_true rfl (Or.inl (by rw [hfile]; simp))
  | none =>
    have hmissing : Vfs.stat none (cfg.url (p.key ++ name)) s = _ := stat_missing hfile
    have hisNotFound : ∀ x, (notFound x).isNotFound = true := fun _ => rfl
    obtain ⟨b, hexists, hb⟩ := hio.list.prefixExists
    simp only [hmissing, hisNotFound, Bool.not_true, Bool.false_eq_true, if_false]
    rw [bind_ok hexists]
    cases b with
    | true => exact iff_of_true rfl (Or.inr (hb.mp rfl))
    | false =>
      refine iff_of_false ?_ ?_
      · simp only [Bool.false_eq_true, if_false]
        cases hput : Vfs.putEmptyObject cfg io (p.key ++ name ++ ['/']) s with
        | mk r t =>
          cases r with
          | error e =>
            have hne := putEmptyObject_error (congrArg Prod.fst hput)
            rw [bind_error hput]
            exact fun h => hne (Except.error.inj h)
          | ok x =>
            rw [bind_ok hput]
            intro h
            cases h
      · rintro (hbucket | hany)
        · exact hbucket hfile
        · exact absurd (hb.mpr hany) (by simp)

/-- A rename of a file returns. -/
theorem rename_file_ok (hp : s.inodes.get parent = some p) (hnp : s.inodes.get newparent = some np)
    (hio : Faultless cfg s.bucket (p.key ++ name ++ ['/']) io) (hfile : s.bucket (p.key ++ name) ≠ none)
    (newname : Str) : (Vfs.rename cfg io parent name newparent newname s).1 = .ok () := by
  obtain ⟨o, ho⟩ := Option.ne_none_iff_exists'.mp hfile
  have ho' : s.bucket (cfg.url (p.key ++ name)).path = some o := ho
  obtain ⟨obj, hobj⟩ := stat_none ho'
  rw [show Vfs.rename cfg io parent name newparent newname s = _ from bind_ok (node_ok hp)]
  rw [bind_ok (node_ok hnp)]
  simp only [cfg.objUrl_eq, ofExcept_ok_bind, attempt_bind, hio.stat, hobj]
  let t := s.put io (np.key ++ newname) o.bytes
  have hmove : Vfs.moveFile cfg io (p.key ++ name) (np.key ++ newname) s =
      (.ok (), t.remove (p.key ++ name)) := by
    have hcopy : Vfs.copy (io.copy 0) io (cfg.url (p.key ++ name)) (cfg.url (np.key ++ newname)) s =
        (.ok (), t) := by
      rw [Vfs.copy, get_bind, ho', hio.copy]
      rfl
    unfold Vfs.moveFile
    simp only [cfg.objUrl_eq, ofExcept_ok_bind]
    rw [bind_ok hcopy, hio.delete]
    rfl
  obtain ⟨u, hu, -⟩ := rekeyFile_run cfg io (p.key ++ name) (np.key ++ newname)
    (t.remove (p.key ++ name))
  rw [show Vfs.renameFile cfg io parent newparent (p.key ++ name) (np.key ++ newname) s = _ from
    bind_ok hmove, bind_ok hu]
  rfl

/-- `rename` does not find the name exactly when the bucket has nothing for it. -/
theorem rename_notFound_iff (hp : s.inodes.get parent = some p)
    (hnp : s.inodes.get newparent = some np)
    (hio : Faultless cfg s.bucket (p.key ++ name ++ ['/']) io) (newname : Str) :
    (∃ e, (Vfs.rename cfg io parent name newparent newname s).1 = .error e ∧ e.isNotFound = true) ↔
      ¬ Backed cfg s.bucket (p.key ++ name) := by
  constructor
  · rintro ⟨e, he, -⟩ (hfile | ⟨key, hkey⟩)
    · rw [rename_file_ok hp hnp hio hfile] at he
      cases he
    · by_cases hfile : s.bucket (p.key ++ name) = none
      · obtain ⟨keys, hkeys, -⟩ := hio.listAll.listedKeys
        obtain ⟨u, hu, -⟩ := exists_rename_dir hp hnp hfile hio hkeys hkey newname
        rw [hu] at he
        cases he
      · rw [rename_file_ok hp hnp hio hfile] at he
        cases he
  · intro hnot
    have hfile : s.bucket (p.key ++ name) = none := by
      by_contra hfile
      exact hnot (Or.inl hfile)
    obtain ⟨b, hexists, hb⟩ := hio.list.prefixExists
    have hfalse : b = false := by
      cases b with
      | false => rfl
      | true => exact absurd (Or.inr (hb.mp rfl)) hnot
    subst hfalse
    have hmove : Vfs.moveTree cfg io name (p.key ++ name ++ ['/']) (np.key ++ newname ++ ['/']) s =
        (.error (notFound name), s) := by
      rw [show Vfs.moveTree cfg io name (p.key ++ name ++ ['/']) (np.key ++ newname ++ ['/']) s = _
        from bind_ok hexists]
      rfl
    refine ⟨notFound name, ?_, rfl⟩
    rw [rename_missing_file hp hnp hio.stat hfile]
    exact congrArg Prod.fst (bind_error hmove)

/-- `rmdir` succeeds when the bucket has nothing in the directory but its marker. -/
theorem rmdir_ok_iff (hp : s.inodes.get parent = some p)
    (hio : Faultless cfg s.bucket (p.key ++ name ++ ['/']) io) :
    (Vfs.rmdir cfg io parent name s).1 = .ok () ↔
      ∀ key, cfg.Lists s.bucket (p.key ++ name ++ ['/']) key → key = p.key ++ name ++ ['/'] := by
  obtain ⟨b, hempty, hb⟩ := hio.list.dirIsEmpty
  rw [show Vfs.rmdir cfg io parent name s = _ from bind_ok (node_ok hp)]
  rw [bind_ok hempty, ← hb]
  cases b with
  | false => exact iff_of_false (fun h => by cases h) (by simp)
  | true =>
    refine iff_of_true ?_ rfl
    simp only [Bool.not_true, Bool.false_eq_true, if_false, cfg.objUrl_eq, ofExcept_ok_bind]
    have hdelete : Vfs.delete (io.delete 0) (cfg.url (p.key ++ name ++ ['/'])) s =
        (.ok (), s.remove (p.key ++ name ++ ['/'])) := by
      rw [hio.delete]
      rfl
    rw [bind_ok hdelete, get_bind]
    cases (s.remove (p.key ++ name ++ ['/'])).inodes.lookupKey (p.key ++ name ++ ['/']) with
    | none => rfl
    | some ino => rfl

/-! ## Directories with nothing but a marker -/

/-- The marker is not listed. -/
theorem readdirLoop_marker {found : List Object}
    (h : ∀ obj ∈ found, obj.err = none ∧ obj.url.map Url.path = some n.key) (u : Url) (any : Bool)
    (acc : Vfs.Listing) :
    Vfs.readdirLoop cfg dir n (found ++ listEnd u any) acc s = (.ok acc, s) := by
  induction found with
  | nil => exact readdirLoop_listEnd cfg dir n u any acc s
  | cons obj found ih =>
    obtain ⟨herr, hpath⟩ := h obj List.mem_cons_self
    obtain ⟨v, hv, hkey⟩ := Option.map_eq_some_iff.mp hpath
    have hchild : obj.child n.key = none := by
      have hrel : (Str.stripPrefix n.key v.path).getD v.path = [] := by
        rw [hkey]
        simp [Str.stripPrefix]
      simp only [Object.child, hv, Option.bind_some, hrel]
      cases obj.typ <;> rfl
    have hstep : Vfs.readdirStep cfg dir n acc obj s = (.ok (some acc), s) :=
      Vfs.readdirStep_skip herr (by simp [hchild])
    rw [List.cons_append, Vfs.readdirLoop, bind_ok hstep]
    exact ih fun o ho => h o (List.mem_cons_of_mem obj ho)

theorem mergeDirty_ne_nil {acc : Vfs.Listing} (h : acc.entries ≠ []) (children : List (Nat × Str)) :
    Vfs.mergeDirty acc children ≠ [] := by
  induction children generalizing acc with
  | nil => exact h
  | cons c children ih =>
    rw [Vfs.mergeDirty]
    split
    · exact ih h
    · exact ih (by simp)

theorem mergeDirty_empty_iff (children : List (Nat × Str)) :
    Vfs.mergeDirty {} children = [] ↔ children = [] := by
  cases children with
  | nil => exact iff_of_true rfl rfl
  | cons c children => exact iff_of_false (mergeDirty_ne_nil (by simp) children) (by simp)

/-- What `readdir` shows of a directory with nothing but a marker: a fresh listing, or
the files with unflushed writes. -/
theorem readdir_marker (hn : s.inodes.get dir = some n) (hdir : n.kind = .dir)
    (hlist : HonestList s.bucket (cfg.url n.key) io.list)
    (hempty : ∀ key, cfg.Lists s.bucket n.key key → key = n.key) :
    (Vfs.readdir cfg io dir s).1 = .ok ((s.cachedDir cfg io dir).getD
      (Vfs.mergeDirty {} (s.dirtyChildren io dir))) := by
  have hisDir : n.kind.isDir = true := by
    rw [hdir]
    rfl
  rw [show Vfs.readdir cfg io dir s = _ from bind_ok (node_ok hn)]
  simp only [hisDir, Bool.not_true, Bool.false_eq_true, if_false, get_bind]
  cases hcached : s.cachedDir cfg io dir with
  | some es => rfl
  | none =>
    simp only [cfg.objUrl_eq, ofExcept_ok_bind, Option.getD_none]
    have hu := isDirUrl_url cfg n.key
    obtain ⟨found, hsent⟩ := hlist.sent rfl
    obtain ⟨objs, hobjs, hmem⟩ := hsent.mem_iff hu cfg
    have hmarker : ∀ obj ∈ found, obj.err = none ∧ obj.url.map Url.path = some n.key := by
      intro obj hobj
      refine ⟨hsent.err obj hobj, ?_⟩
      obtain ⟨o, ho, htakes, it, hit, rfl⟩ := (hmem obj).mp hobj
      have hkey := hempty o.key ⟨(hobjs.mem o.key).mp ⟨o, ho, rfl⟩, htakes⟩
      rw [toObject_path, (hu.item_name_eq_iff hit).mpr hkey]
    have hloop : Vfs.readdirLoop cfg dir n io.list {} s = (.ok {}, s) := by
      rw [hsent.list_eq]
      exact readdirLoop_marker hmarker _ _ {}
    rw [bind_ok hloop]
    rfl

/-! ## Agreement -/

/-- The views of the namespace agree: a name that resolves exists for `mkdir` and is
found by `rename`, and a directory that can be removed shows no entries. -/
structure OneView (cfg : VfsConfig) (s : Vfs) : Prop where
  mkdir : ∀ parent name p io io', s.inodes.get parent = some p →
    Faultless cfg s.bucket (p.key ++ name ++ ['/']) io →
    Faultless cfg s.bucket (p.key ++ name ++ ['/']) io' →
      s.Resolves cfg io parent name → (Vfs.mkdir cfg io' parent name s).1 = .error .alreadyExists
  rmdir : ∀ parent name p dir io io' es, s.inodes.get parent = some p →
    s.inodes.lookupKey (p.key ++ name ++ ['/']) = some dir →
    Faultless cfg s.bucket (p.key ++ name ++ ['/']) io →
    Faultless cfg s.bucket (p.key ++ name ++ ['/']) io' →
      (Vfs.rmdir cfg io parent name s).1 = .ok () → (Vfs.readdir cfg io' dir s).1 = .ok es → es = []
  rename : ∀ parent name p newparent newname np io io' e, s.inodes.get parent = some p →
    s.inodes.get newparent = some np →
    Faultless cfg s.bucket (p.key ++ name ++ ['/']) io →
    Faultless cfg s.bucket (p.key ++ name ++ ['/']) io' →
      s.Resolves cfg io parent name →
        (Vfs.rename cfg io' parent name newparent newname s).1 = .error e → e.isNotFound = false

/-- What the mount answers without the bucket is in the bucket: each file with
unflushed writes, each entry of a fresh listing, and a file in each directory that is
shown to have one. -/
structure Synced (cfg : VfsConfig) (s : Vfs) : Prop where
  pending : ∀ parent name p ino, s.inodes.get parent = some p → p.kind = .dir →
    s.inodes.lookupKey (p.key ++ name) = some ino → s.dirtySizes[ino]? ≠ none →
      Backed cfg s.bucket (p.key ++ name)
  listed : ∀ parent name p io es e, s.inodes.get parent = some p → p.kind = .dir →
    s.cachedDir cfg io parent = some es → es.find? (fun e => e.name = name) = some e →
      s.Answers cfg io e.ino → Backed cfg s.bucket (p.key ++ name)
  listedDir : ∀ parent name p dir n io es, s.inodes.get parent = some p →
    s.inodes.lookupKey (p.key ++ name ++ ['/']) = some dir → s.inodes.get dir = some n →
    n.kind = .dir → s.cachedDir cfg io dir = some es → es ≠ [] →
      ∃ key, cfg.Lists s.bucket (p.key ++ name ++ ['/']) key ∧ key ≠ p.key ++ name ++ ['/']
  openFiles : ∀ parent name p dir n io, s.inodes.get parent = some p →
    s.inodes.lookupKey (p.key ++ name ++ ['/']) = some dir → s.inodes.get dir = some n →
    n.kind = .dir → s.cachedDir cfg io dir = none → s.dirtyChildren io dir ≠ [] →
      ∃ key, cfg.Lists s.bucket (p.key ++ name ++ ['/']) key ∧ key ≠ p.key ++ name ++ ['/']

/-- A name that resolves is backed. -/
theorem Synced.backed (h : Synced cfg s) (hp : s.inodes.get parent = some p)
    (hio : Faultless cfg s.bucket (p.key ++ name ++ ['/']) io)
    (hres : s.Resolves cfg io parent name) : Backed cfg s.bucket (p.key ++ name) := by
  cases hdir : p.kind with
  | file => exact absurd hres (not_resolves_of_file hp hdir)
  | dir =>
    by_cases hdirty : s.Unflushed p name
    · obtain ⟨ino, hino, hdirty⟩ := hdirty
      exact h.pending parent name p ino hp hdir hino hdirty
    · cases hino : s.pendingOrCached cfg io parent (p.key ++ name) name with
      | none => exact (lookup_direct_ok_iff hp hdir hino hio).mp hres
      | some ino =>
        have hanswers := (resolves_of_some hp hdir hio.statAttr hino).mp hres
        rw [pendingOrCached_flushed hdirty] at hino
        obtain ⟨es, hes, hentry⟩ := Option.bind_eq_some_iff.mp hino
        obtain ⟨e, he, rfl⟩ := Option.map_eq_some_iff.mp hentry
        exact h.listed parent name p io es e hp hdir hes he hanswers

theorem Synced.oneView (h : Synced cfg s) (hwf : s.inodes.Wf) : OneView cfg s where
  mkdir := by
    intro parent name p io io' hp hio hio' hres
    exact (mkdir_exists_iff hp hio').mpr (h.backed hp hio hres)
  rmdir := by
    intro parent name p dir io io' es hp hdir hio hio' hok hes
    have hempty := (rmdir_ok_iff hp hio).mp hok
    obtain ⟨n, hn, hkey⟩ := hwf.byKey _ dir hdir
    cases hkind : n.kind with
    | file =>
      have hisDir : n.kind.isDir = false := by
        rw [hkind]
        rfl
      rw [show Vfs.readdir cfg io' dir s = _ from bind_ok (node_ok hn)] at hes
      simp only [hisDir, Bool.not_false, if_true] at hes
      cases hes
    | dir =>
      rw [← hkey] at hempty hio'
      rw [readdir_marker hn hkind hio'.list hempty] at hes
      obtain rfl := Except.ok.inj hes
      rw [hkey] at hempty
      cases hcached : s.cachedDir cfg io' dir with
      | some es =>
        by_contra hne
        obtain ⟨key, hlists, hother⟩ := h.listedDir parent name p dir n io' es hp hdir hn hkind hcached hne
        exact hother (hempty key hlists)
      | none =>
        rw [Option.getD_none, mergeDirty_empty_iff]
        by_contra hne
        obtain ⟨key, hlists, hother⟩ := h.openFiles parent name p dir n io' hp hdir hn hkind hcached hne
        exact hother (hempty key hlists)
  rename := by
    intro parent name p newparent newname np io io' e hp hnp hio hio' hres he
    by_contra hnot
    have hmissing := (rename_notFound_iff hp hnp hio' newname).mp ⟨e, he, by simpa using hnot⟩
    exact hmissing (h.backed hp hio hres)

/-- Where the views agree, what the mount answers without the bucket is there. -/
theorem OneView.synced (h : OneView cfg s) (hwf : s.inodes.Wf) {objs : List StoredObject}
    (hobjs : Describes objs s.bucket) : Synced cfg s := by
  -- what resolves is backed, or `mkdir` would make it
  have hbacked : ∀ parent name p io, s.inodes.get parent = some p →
      s.Resolves cfg (answering cfg percentEncodeAll objs (p.key ++ name ++ ['/']) io) parent name →
        Backed cfg s.bucket (p.key ++ name) := by
    intro parent name p io hp hres
    have hio := @faultless_answering cfg s.bucket _ objs hobjs (keepsNames_encodeAll objs)
      (p.key ++ name ++ ['/']) io
    exact (mkdir_exists_iff hp hio).mp (h.mkdir parent name p _ _ hp hio hio hres)
  have hpending : ∀ parent name p ino, s.inodes.get parent = some p → p.kind = .dir →
      s.inodes.lookupKey (p.key ++ name) = some ino → s.dirtySizes[ino]? ≠ none →
        Backed cfg s.bucket (p.key ++ name) := by
    intro parent name p ino hp hdir hino hdirty
    refine hbacked parent name p {} hp ?_
    have hfound : s.pendingOrCached cfg (answering cfg percentEncodeAll objs (p.key ++ name ++ ['/']) {}) parent
        (p.key ++ name) name = some ino := pendingOrCached_unflushed hino hdirty
    obtain ⟨n, hn, -⟩ := hwf.byKey _ ino hino
    exact (resolves_of_some hp hdir rfl hfound).mpr ⟨n, hn, Or.inr (Or.inl hdirty)⟩
  -- a directory with nothing but a marker shows nothing, or `rmdir` would remove it
  have hshown : ∀ parent name p dir n io, s.inodes.get parent = some p →
      s.inodes.lookupKey (p.key ++ name ++ ['/']) = some dir → s.inodes.get dir = some n →
      n.kind = .dir → (s.cachedDir cfg io dir).getD (Vfs.mergeDirty {} (s.dirtyChildren io dir)) ≠ [] →
        ∃ key, cfg.Lists s.bucket (p.key ++ name ++ ['/']) key ∧ key ≠ p.key ++ name ++ ['/'] := by
    intro parent name p dir n io hp hdir hn hkind hne
    by_contra hnot
    have hempty : ∀ key, cfg.Lists s.bucket (p.key ++ name ++ ['/']) key →
        key = p.key ++ name ++ ['/'] := by
      intro key hkey
      by_contra hother
      exact hnot ⟨key, hkey, hother⟩
    have hio := @faultless_answering cfg s.bucket _ objs hobjs (keepsNames_encodeAll objs)
      (p.key ++ name ++ ['/']) io
    obtain ⟨m, hm, hkey⟩ := hwf.byKey _ dir hdir
    obtain rfl : n = m := Option.some.inj (hn.symm.trans hm)
    have hlist : HonestList s.bucket (cfg.url n.key)
        (answering cfg percentEncodeAll objs (p.key ++ name ++ ['/']) io).list := by
      rw [hkey]
      exact hio.list
    have hmarker : ∀ key, cfg.Lists s.bucket n.key key → key = n.key := by
      rw [hkey]
      exact hempty
    exact hne (h.rmdir parent name p dir _ _ _ hp hdir hio hio ((rmdir_ok_iff hp hio).mpr hempty)
      (readdir_marker hn hkind hlist hmarker))
  refine ⟨hpending, ?_, ?_, ?_⟩
  · intro parent name p io es e hp hdir hes he hanswers
    by_cases hdirty : s.Unflushed p name
    · obtain ⟨ino, hino, hdirty⟩ := hdirty
      exact hpending parent name p ino hp hdir hino hdirty
    · refine hbacked parent name p io hp ?_
      have hes' : s.cachedDir cfg (answering cfg percentEncodeAll objs (p.key ++ name ++ ['/']) io) parent = some es := hes
      have hfound : s.pendingOrCached cfg (answering cfg percentEncodeAll objs (p.key ++ name ++ ['/']) io) parent
          (p.key ++ name) name = some e.ino := by
        rw [pendingOrCached_flushed hdirty, hes', Option.bind_some, he, Option.map_some]
      exact (resolves_of_some hp hdir rfl hfound).mpr hanswers
  · intro parent name p dir n io es hp hdir hn hkind hes hne
    refine hshown parent name p dir n io hp hdir hn hkind ?_
    rw [hes, Option.getD_some]
    exact hne
  · intro parent name p dir n io hp hdir hn hkind hnone hne
    refine hshown parent name p dir n io hp hdir hn hkind ?_
    rw [hnone, Option.getD_none]
    exact fun hnil => hne ((mergeDirty_empty_iff _).mp hnil)

end OneView

/-- **When the mount has one view of its namespace.** In every state that a mount
reaches, whatever has failed on the way, `mkdir`, `rmdir` and `rename` agree with
`lookup` and `readdir` exactly when what those answer without the bucket is in it. -/
theorem one_view_iff_synced (cfg : VfsConfig) (rootKey : Str) (bucket : Str → Option Stored)
    (es : List MountEvent) (m : Mounted) (objs : List StoredObject)
    (hrun : Mounted.run cfg (.new rootKey bucket) es = some m)
    (hobjs : Describes objs m.vfs.bucket) : OneView cfg m.vfs ↔ Synced cfg m.vfs := by
  have hwf : m.vfs.inodes.Wf :=
    Machine.run_invariant (fun _ _ _ hstep h => Mounted.step_wf hstep h) hrun
      (InodeTable.new_wf rootKey)
  exact ⟨fun h => h.synced hwf hobjs, fun h => h.oneView hwf⟩

/-! ## Files that are not uploaded yet -/

namespace OneView

/-- A bucket with an empty directory. -/
def objects : List (Str × List UInt8) := [("d/".toList, [])]

/-- The directory is looked up and a file created in it, and another beside it. -/
def creating : List MountEvent :=
  [.op (answering .sample urlEncode (objectsOf objects) "d/".toList {}) (.lookup rootInode "d".toList),
    .op {} (.create 2 "f".toList), .op {} (.create rootInode "g".toList)]

/-- The mount then. -/
def unflushed : Mounted :=
  (((Mounted.new [] (bucketOf objects)).exec .sample
    (answering .sample urlEncode (objectsOf objects) "d/".toList {}) (.lookup rootInode "d".toList)).exec
      .sample {} (.create 2 "f".toList)).exec .sample {} (.create rootInode "g".toList)

theorem describes : Describes (objectsOf objects) (bucketOf objects) :=
  describes_objectsOf (by decide)

/-- What the requests on a name are told. -/
def io (dirKey : String) : Io := answering .sample urlEncode (objectsOf objects) dirKey.toList {}

end OneView

namespace OneView

/-- A file is created in the directory, written and flushed, and then written again. -/
def rewriting : List MountEvent :=
  [.op (answering .sample urlEncode (objectsOf objects) "d/".toList {}) (.lookup rootInode "d".toList),
    .op {} (.create 2 "f".toList), .op {} (.write 1 0 [1]), .op {} (.flush 1), .op {} (.write 1 1 [2])]

/-- The mount then. -/
def rewritten : Mounted :=
  (((((Mounted.new [] (bucketOf objects)).exec .sample
    (answering .sample urlEncode (objectsOf objects) "d/".toList {}) (.lookup rootInode "d".toList)).exec
      .sample {} (.create 2 "f".toList)).exec .sample {} (.write 1 0 [1])).exec
        .sample {} (.flush 1)).exec .sample {} (.write 1 1 [2])

/-- What the bucket holds then. -/
def rewrittenObjects : List (Str × List UInt8) := [("d/f".toList, [1]), ("d/".toList, [])]

theorem bucket_rewritten : rewritten.vfs.bucket = bucketOf rewrittenObjects := by
  have hput : rewritten.vfs.bucket =
      Function.update (bucketOf objects) "d/f".toList (some ⟨[1], some 0⟩) := rfl
  rw [hput]
  funext key
  by_cases hkey : key = "d/f".toList
  · subst hkey
    rw [Function.update_self]
    rfl
  · rw [Function.update_of_ne hkey, bucketOf, bucketOf, rewrittenObjects, List.lookup_cons,
      beq_false_of_ne hkey]
    rfl

/-- The file that is being written is in the bucket, with what was flushed of it. -/
theorem synced_rewritten (hwf : rewritten.vfs.inodes.Wf) : Synced .sample rewritten.vfs := by
  have hfile : rewritten.vfs.inodes.get 3 = some ⟨"d/f".toList, .file, 2⟩ := by decide +kernel
  have hnocache : ∀ io dir, rewritten.vfs.cachedDir .sample io dir = none := by
    intro io dir
    have hempty : rewritten.vfs.dirCache.isEmpty = true := by decide +kernel
    rw [Vfs.cachedDir, Std.ExtTreeMap.isEmpty_iff.mp hempty, Std.ExtTreeMap.getElem?_empty,
      Option.bind_none]
  refine ⟨?_, ?_, ?_, ?_⟩
  · intro parent name p ino _ _ hino hdirty
    have hmem : ino ∈ rewritten.vfs.dirtySizes.keys := by
      rw [Std.ExtTreeMap.mem_keys, Std.ExtTreeMap.mem_iff_isSome_getElem?]
      exact Option.ne_none_iff_isSome.mp hdirty
    rw [show rewritten.vfs.dirtySizes.keys = [3] by decide +kernel] at hmem
    obtain rfl := List.mem_singleton.mp hmem
    obtain ⟨n, hn, hkey⟩ := hwf.byKey _ _ hino
    obtain rfl := Option.some.inj (hfile.symm.trans hn)
    rw [← hkey, bucket_rewritten]
    exact Or.inl (by decide +kernel)
  · intro parent name p io es e _ _ hes
    rw [hnocache] at hes
    cases hes
  · intro parent name p dir n io es _ _ _ _ hes
    rw [hnocache] at hes
    cases hes
  · intro parent name p dir n io _ hdir _ _ _ hne
    obtain ⟨c, hc⟩ := List.exists_mem_of_ne_nil _ hne
    unfold Vfs.dirtyChildren at hc
    split at hc
    · cases hc
    · obtain ⟨e, he, hchild⟩ := List.mem_filterMap.mp hc
      have hhandle : rewritten.vfs.handles[e.1]? = some e.2 := Maps.mem_inOrder_toList.mp he
      have hmem : e.1 ∈ rewritten.vfs.handles.keys := by
        rw [Std.ExtTreeMap.mem_keys, Std.ExtTreeMap.mem_iff_isSome_getElem?, hhandle]
        rfl
      rw [show rewritten.vfs.handles.keys = [1] by decide +kernel, List.mem_singleton] at hmem
      rw [hmem] at hhandle
      have hino : rewritten.vfs.handles[1]?.map OpenFile.ino = some 3 := by decide +kernel
      rw [hhandle, Option.map_some] at hino
      split at hchild
      · cases hchild
      · -- the file is in the directory `d`
        rw [Option.some.inj hino, hfile] at hchild
        dsimp only at hchild
        split at hchild
        · rename_i hparent
          obtain rfl := hparent.1
          obtain ⟨m, hm, hkey⟩ := hwf.byKey _ _ hdir
          have hmd : rewritten.vfs.inodes.get 2 = some ⟨"d/".toList, .dir, rootInode⟩ := by
            decide +kernel
          obtain rfl := Option.some.inj (hmd.symm.trans hm)
          rw [← hkey, bucket_rewritten]
          have htakes : (VfsConfig.sample.url "d/".toList).isMatch "d/f".toList = true := by
            decide +kernel
          exact ⟨"d/f".toList, ⟨by decide +kernel, htakes⟩, by decide⟩
        · cases hchild

end OneView

open OneView in
/-- A file that is written again while it is in the bucket is seen by all operations. -/
theorem one_view_iff_synced_rewritten : OneView .sample rewritten.vfs := by
  have hrun : Mounted.run .sample (.new [] (bucketOf objects)) rewriting = some rewritten := rfl
  have hwf : rewritten.vfs.inodes.Wf :=
    Machine.run_invariant (fun _ _ _ hstep h => Mounted.step_wf hstep h) hrun
      (InodeTable.new_wf [])
  refine (one_view_iff_synced .sample [] (bucketOf objects) rewriting rewritten
    (objectsOf rewrittenObjects) hrun ?_).mpr (synced_rewritten hwf)
  rw [bucket_rewritten]
  exact describes_objectsOf (by decide)

open OneView in
/-- A file that is not uploaded yet resolves, but `mkdir` makes a directory over it and
`rename` does not find it, and the directory that shows one can be removed. -/
theorem unflushed_files_are_not_seen :
    Mounted.run .sample (.new [] (bucketOf objects)) creating = some unflushed ∧
      ((Vfs.lookup .sample (io "g/") rootInode "g".toList unflushed.vfs).1 = .ok ⟨4, .file, 0, 0⟩ ∧
        (Vfs.mkdir .sample (io "g/") rootInode "g".toList unflushed.vfs).1 = .ok ⟨5, .dir, 0, 0⟩ ∧
        (Vfs.rename .sample (io "g/") rootInode "g".toList rootInode "h".toList unflushed.vfs).1 =
          .error (notFound "g".toList)) ∧
      ((Vfs.rmdir .sample (io "d/") rootInode "d".toList unflushed.vfs).1 = .ok () ∧
        (Vfs.readdir .sample (io "d/") 2 unflushed.vfs).1 = .ok [⟨3, "f".toList, .file⟩]) ∧
      ¬ OneView .sample unflushed.vfs := by
  have hroot : unflushed.vfs.inodes.get rootInode = some ⟨[], .dir, rootInode⟩ := by decide +kernel
  have hbucket : unflushed.vfs.bucket = bucketOf objects := rfl
  have hlookup : (Vfs.lookup .sample (io "g/") rootInode "g".toList unflushed.vfs).1 =
      .ok ⟨4, .file, 0, 0⟩ := by
    decide +kernel
  have hmkdir : (Vfs.mkdir .sample (io "g/") rootInode "g".toList unflushed.vfs).1 =
      .ok ⟨5, .dir, 0, 0⟩ := by
    decide +kernel
  refine ⟨rfl, ⟨hlookup, hmkdir, by decide +kernel⟩, ⟨by decide +kernel, by decide +kernel⟩, ?_⟩
  intro h
  have hio : Faultless .sample unflushed.vfs.bucket "g/".toList (io "g/") := by
    rw [hbucket]
    exact faultless_answering describes (keepsNames_urlEncode (by decide)) _ _
  have hexists := h.mkdir rootInode "g".toList _ _ _ hroot hio hio ⟨_, hlookup⟩
  rw [hmkdir] at hexists
  cases hexists

end Rs5cmd
