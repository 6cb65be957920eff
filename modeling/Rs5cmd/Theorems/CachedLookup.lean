import Rs5cmd.Mount.Listing
import Rs5cmd.Theorems.DirtySizes
import Rs5cmd.Theorems.ParentKeys

/-!
# Cached and direct lookups

`lookup` takes a name from a fresh listing of its directory, and asks the bucket when
there is none. The bucket is asked for a file first, but a listing shows the common
prefixes of a page before its objects and drops what has a name that was seen. So
the two agree unless something is below a name that is a file too, or that the inode
table takes for one.
-/

namespace Rs5cmd

open Cmd

/-! ## Directories have a slash at the end -/

namespace InodeTable

/-- The key of a directory is empty or ends with a slash. -/
def SlashKeys (t : InodeTable) : Prop :=
  ∀ i n, t.get i = some n → n.kind = .dir → n.key = [] ∨ ∃ d, n.key = d ++ ['/']

theorem new_slashKeys {rootKey : Str} (h : rootKey = [] ∨ ∃ d, rootKey = d ++ ['/']) :
    (new rootKey).SlashKeys := by
  intro i n hn _
  simp only [get, new, Maps.getElem?_insert_eq] at hn
  split at hn
  · obtain rfl := Option.some.inj hn
    exact h
  · simp at hn

variable {t : InodeTable}

theorem SlashKeys.intern (h : t.SlashKeys) (p : Node) (name : Str) (kind : NodeKind) (parent : Nat) :
    (t.intern (p.child name kind) kind parent).2.SlashKeys := by
  intro i n hn hdir
  rcases intern_cases t (p.child name kind) kind parent with ⟨j, -, heq⟩ | ⟨-, heq⟩
  · rw [heq] at hn
    exact h i n hn hdir
  · rw [heq] at hn
    simp only [get, Maps.getElem?_insert_eq] at hn
    split at hn
    · obtain rfl := Option.some.inj hn
      obtain rfl : kind = .dir := hdir
      exact Or.inr ⟨p.key ++ name, rfl⟩
    · exact h i n hn hdir

/-- A name without a slash is no directory's. -/
theorem SlashKeys.file (h : t.SlashKeys) {i : Nat} {n : Node} (hn : t.get i = some n) {key name : Str}
    (hname : IsChildName name) (hkey : n.key = key ++ name) : n.kind = .file := by
  cases hkind : n.kind with
  | file => rfl
  | dir =>
    rcases h i n hn hkind with hnil | ⟨d, hd⟩
    · exact absurd (List.append_eq_nil_iff.mp (hkey.symm.trans hnil)).2 hname.1
    · exact absurd (hkey.symm.trans hd) (not_slash_of_name hname key d)

theorem SlashKeys.dropKey (h : t.SlashKeys) (key : Str) : (t.dropKey key).SlashKeys :=
  fun i n hn => h i n (get_of_get_dropKey hn)

theorem SlashKeys.fileRenamed (h : t.SlashKeys) (hwf : t.Wf) {key name : Str}
    (hname : IsChildName name) (newFile : Str) : (t.fileRenamed (key ++ name) newFile).SlashKeys := by
  unfold InodeTable.fileRenamed
  cases hino : (t.dropKey newFile).lookupKey (key ++ name) with
  | none => exact h.dropKey newFile
  | some ino =>
    intro i n hn hdir
    obtain ⟨m, hm, hkey⟩ := (hwf.dropKey newFile).byKey _ ino hino
    rw [get_rekey] at hn
    split at hn
    · -- what has the name is a file
      rename_i hi
      subst hi
      rw [hm] at hn
      obtain rfl := Option.some.inj hn
      have hfile := (h.dropKey newFile).file hm hname hkey
      exact absurd (hfile.symm.trans hdir) (by decide)
    · exact h.dropKey newFile i n hn hdir

theorem SlashKeys.rekeyPrefix (h : t.SlashKeys) (order : List Nat) (oldDir newDir : Str) :
    (t.rekeyPrefix order (oldDir ++ ['/']) (newDir ++ ['/'])).2.SlashKeys := by
  intro i n hn hdir
  obtain ⟨m, hm, rfl⟩ := get_rekeyPrefix_eq_some.mp hn
  rcases h i m hm hdir with hnil | ⟨d, hd⟩
  · refine Or.inl ?_
    show movedKey _ _ m.key = []
    rw [hnil]
    exact movedKey_of_not (by simp)
  · exact Or.inr (movedKey_slash hd)

end InodeTable

theorem TableStep.slashKeys {cfg : VfsConfig} {io : Io} {o : Op} {s : Vfs} {t t' : InodeTable}
    (hstep : TableStep cfg io o s t t') (hnames : ∀ name ∈ o.names, IsChildName name) (hwf : t.Wf)
    (h : t.SlashKeys) : t'.SlashKeys := by
  cases hstep with
  | intern hp hdir hname => exact h.intern _ _ _ _
  | forget kind hp hname hino => exact fun i n hn => h i n (InodeTable.get_of_get_forget hn)
  | renameFile ho hp hnp hstat hmove =>
    subst ho
    exact h.fileRenamed hwf (hnames _ (by simp [Op.names])) _
  | renameDir ho hp hnp hstat hnot hmove => exact h.rekeyPrefix _ _ _

/-! ## Unflushed files have been given out -/

theorem TableStep.next_le {cfg : VfsConfig} {io : Io} {o : Op} {s : Vfs} {t t' : InodeTable}
    (hstep : TableStep cfg io o s t t') : t.next ≤ t'.next := by
  have hdrop : ∀ (t : InodeTable) (key : Str), (t.dropKey key).next = t.next := by
    intro t key
    unfold InodeTable.dropKey
    split
    · exact InodeTable.next_forget _ _
    · rfl
  cases hstep with
  | intern hp hdir hname => exact InodeTable.next_le_intern _ _ _ _
  | forget kind hp hname hino => exact (InodeTable.next_forget _ _).ge
  | renameFile ho hp hnp hstat hmove =>
    unfold InodeTable.fileRenamed
    split
    · exact (hdrop _ _).ge
    · rw [InodeTable.next_rekey]
      exact (hdrop _ _).ge
  | renameDir ho hp hnp hstat hnot hmove => exact (InodeTable.next_rekeyPrefix _ _ _ _).ge

theorem exec_next_le (cfg : VfsConfig) (io : Io) (o : Op) {s : Vfs} (hwf : s.inodes.Wf) :
    s.inodes.next ≤ (o.exec cfg io s).2.inodes.next :=
  exec_table_invariant (P := fun t => s.inodes.next ≤ t.next)
    (fun _ _ hstep h => h.trans hstep.next_le) hwf (Nat.le_refl _)

/-- An inode with unflushed writes or an open writer has been given out. -/
structure Vfs.Numbered (s : Vfs) : Prop where
  fresh : FreshWriters s
  sizes : ∀ ino, s.dirtySizes[ino]? ≠ none → ino < s.inodes.next
  writers : ∀ fh ino n, s.writerSize fh = some (ino, n) → ino < s.inodes.next

section Numbered

variable {cfg : VfsConfig} {io : Io} {l l' : Ledger} {s s' : Vfs}

theorem Ledger.Effect.numbered (he : Ledger.Effect l s l' s') (h : s.Numbered) (hwf : s'.inodes.Wf)
    (hle : s.inodes.next ≤ s'.inodes.next) : s'.Numbered := by
  refine ⟨he.freshWriters h.fresh, ?_, ?_⟩
  · intro i hi
    cases he with
    | quiet hq =>
      rw [hq.dirtySizes] at hi
      exact (h.sizes i hi).trans_le hle
    | @touched _ fh ino size ht hino =>
      obtain ⟨time, hdirty⟩ := ht.dirtySizes
      rw [hdirty, Maps.getElem?_insert_eq] at hi
      by_cases heq : ino = i
      · subst heq
        rcases hino with ⟨n, hn⟩ | ⟨n, hn⟩
        · exact hwf.lt_next hn
        · exact (h.writers fh ino n hn).trans_le hle
      · rw [if_neg heq] at hi
        exact (h.sizes i hi).trans_le hle
    | released hc hdirty =>
      rw [hdirty, Maps.getElem?_erase_eq] at hi
      split at hi
      · exact absurd rfl hi
      · exact (h.sizes i hi).trans_le hle
    | lost hc hdirty =>
      rw [hdirty] at hi
      exact (h.sizes i hi).trans_le hle
    | dropped hn hwriters hnext hdirty hinodes =>
      rw [hdirty, Maps.getElem?_erase_eq] at hi
      split at hi
      · exact absurd rfl hi
      · exact (h.sizes i hi).trans_le hle
  · intro k i n hk
    cases he with
    | quiet hq => exact (h.writers k i n ((hq.writers k).symm.trans hk)).trans_le hle
    | @touched _ fh ino size ht hino =>
      by_cases hkf : k = fh
      · subst hkf
        obtain ⟨rfl, -⟩ := Prod.mk.inj (Option.some.inj (ht.writer.symm.trans hk))
        rcases hino with ⟨m, hm⟩ | ⟨m, hm⟩
        · exact hwf.lt_next hm
        · exact (h.writers k ino m hm).trans_le hle
      · exact (h.writers k i n ((ht.others k hkf).symm.trans hk)).trans_le hle
    | released hc hdirty => exact (h.writers k i n (hc.writerSize_of_some hk)).trans_le hle
    | lost hc hdirty => exact (h.writers k i n (hc.writerSize_of_some hk)).trans_le hle
    | dropped hn hwriters => exact (h.writers k i n ((hwriters k).symm.trans hk)).trans_le hle

end Numbered

/-! ## Mounts -/

namespace Mounted

/-- The operation has names that the kernel can send. -/
def Named (_ : Mounted) : MountEvent → Prop
  | .op _ o => ∀ name ∈ o.names, IsChildName name
  | .unmount _ => True

/-- What holds of a mount that was only given names. -/
structure Kept (m : Mounted) : Prop where
  wf : m.vfs.inodes.Wf
  slash : m.vfs.inodes.SlashKeys
  numbered : m.vfs.Numbered

theorem new_kept {rootKey : Str} (h : rootKey = [] ∨ ∃ d, rootKey = d ++ ['/'])
    (bucket : Str → Option Stored) : (new rootKey bucket).Kept where
  wf := InodeTable.new_wf rootKey
  slash := InodeTable.new_slashKeys h
  numbered := by
    have hhandle : ∀ fh, (Vfs.new rootKey bucket).writerSize fh = none := by
      intro fh
      simp [Vfs.writerSize, Vfs.new]
    refine ⟨fun fh _ => hhandle fh, fun ino hino => ?_, fun fh ino n hn => ?_⟩
    · exact absurd Std.ExtTreeMap.getElem?_empty hino
    · rw [show (new rootKey bucket).vfs.writerSize fh = none from hhandle fh] at hn
      cases hn

theorem step_kept {cfg : VfsConfig} {m m' : Mounted} {e : MountEvent} (hnamed : m.Named e)
    (hstep : step cfg m e = some m') (h : m.Kept) : m'.Kept := by
  have hwf := step_wf hstep h.wf
  refine ⟨hwf, ?_, ?_⟩
  · refine (table_invariant (P := fun t => t.Wf ∧ t.SlashKeys) ?_ hstep h.wf ⟨h.wf, h.slash⟩).2
    rintro io o t t' rfl ht ⟨hwf, hslash⟩
    exact ⟨ht.wf hwf, ht.slashKeys hnamed hwf hslash⟩
  · cases e with
    | op io o =>
      obtain ⟨-, rfl⟩ := step_op hstep
      exact (exec_effect h.wf h.numbered.fresh {} o).numbered h.numbered hwf (exec_next_le cfg io o h.wf)
    | unmount removed =>
      obtain ⟨-, rfl⟩ := step_unmount hstep
      have hhandle : ∀ fh, (m.vfs.unmounted removed).writerSize fh = none := by
        intro fh
        simp [Vfs.writerSize, Vfs.unmounted]
      refine ⟨fun fh _ => hhandle fh, h.numbered.sizes, fun fh ino n hn => ?_⟩
      rw [show (m.vfs.unmounted removed).writerSize fh = none from hhandle fh] at hn
      cases hn

theorem run_kept {cfg : VfsConfig} {m m' : Mounted} {es : List MountEvent}
    (hnamed : Machine.Along (step cfg) Named m es) (hrun : run cfg m es = some m') (h : m.Kept) :
    m'.Kept :=
  Machine.along_invariant (fun _ _ _ hnamed hstep hm => step_kept hnamed hstep hm) hnamed hrun h

end Mounted

/-! ## What a lookup finds -/

/-- What a lookup finds: the inode, its kind and its size. -/
def Vfs.found (s : Vfs) (cfg : VfsConfig) (io : Io) (parent : Nat) (name : Str) :
    Option (Nat × NodeKind × Nat) :=
  match (Vfs.lookup cfg io parent name s).1 with
  | .ok a => some (a.ino, a.kind, a.size)
  | .error _ => none

section Found

variable {cfg : VfsConfig} {io io' : Io} {s : Vfs} {parent ino : Nat} {name : Str} {p n : Node}

theorem found_of_ok {a : Attr} {t : Vfs} (h : Vfs.lookup cfg io parent name s = (.ok a, t)) :
    s.found cfg io parent name = some (a.ino, a.kind, a.size) := by
  simp only [Vfs.found, h]

theorem found_of_error {e : MountError} {t : Vfs}
    (h : Vfs.lookup cfg io parent name s = (.error e, t)) : s.found cfg io parent name = none := by
  simp only [Vfs.found, h]

section Direct

variable (hp : s.inodes.get parent = some p) (hdir : p.kind = .dir)
  (hnone : s.pendingOrCached cfg io parent (p.key ++ name) name = none)
  (hio : Faultless cfg s.bucket (p.key ++ name ++ ['/']) io)

include hp hdir hnone hio

theorem found_file {o : Stored} (ho : s.bucket (p.key ++ name) = some o) :
    s.found cfg io parent name =
      some ((s.inodes.intern (p.key ++ name) .file parent).1, .file, o.bytes.length) := by
  obtain ⟨t, ht⟩ := lookup_file hp hdir hnone hio ho
  exact found_of_ok ht

theorem found_dir (hfile : s.bucket (p.key ++ name) = none)
    (hany : ∃ key, cfg.Lists s.bucket (p.key ++ name ++ ['/']) key) :
    s.found cfg io parent name =
      some ((s.inodes.intern (p.key ++ name ++ ['/']) .dir parent).1, .dir, 0) := by
  rcases lookup_noFile hp hdir hnone hio hfile with ⟨-, t, ht⟩ | ⟨hempty, -⟩
  · exact found_of_ok ht
  · exact absurd hany hempty

/-- Two lookups that both ask the bucket find the same. -/
theorem found_direct_eq (hnone' : s.pendingOrCached cfg io' parent (p.key ++ name) name = none)
    (hio' : Faultless cfg s.bucket (p.key ++ name ++ ['/']) io') :
    s.found cfg io parent name = s.found cfg io' parent name := by
  cases hfile : s.bucket (p.key ++ name) with
  | some o => rw [found_file hp hdir hnone hio hfile, found_file hp hdir hnone' hio' hfile]
  | none =>
    rcases lookup_noFile hp hdir hnone hio hfile with ⟨hany, -⟩ | ⟨hempty, hrun⟩
    · rw [found_dir hp hdir hnone hio hfile hany, found_dir hp hdir hnone' hio' hfile hany]
    · rcases lookup_noFile hp hdir hnone' hio' hfile with ⟨hany, -⟩ | ⟨-, hrun'⟩
      · exact absurd hany hempty
      · rw [found_of_error hrun, found_of_error hrun']

end Direct

section Cached

variable (hp : s.inodes.get parent = some p) (hdir : p.kind = .dir)
  (hino : s.pendingOrCached cfg io parent (p.key ++ name) name = some ino)
  (hn : s.inodes.get ino = some n)

include hp hdir hino hn

theorem found_cachedDir (hkind : n.kind = .dir) : s.found cfg io parent name = some (ino, .dir, 0) := by
  apply found_of_ok (a := cfg.dirAttr ino)
  rw [lookup_pendingOrCached hp hdir hino]
  exact getattr_dir hn hkind

theorem found_dirty (hkind : n.kind = .file) {e : Nat × Int} (hdirty : s.dirtySizes[ino]? = some e) :
    s.found cfg io parent name = some (ino, .file, e.1) := by
  apply found_of_ok (a := ⟨ino, .file, e.1, e.2⟩)
  rw [lookup_pendingOrCached hp hdir hino]
  exact getattr_dirty hn hkind hdirty

theorem found_cachedAttr (hkind : n.kind = .file) (hclean : s.dirtySizes[ino]? = none) {a : Attr}
    (ha : s.cachedAttr cfg io ino = some a) :
    s.found cfg io parent name = some (a.ino, a.kind, a.size) := by
  apply found_of_ok (a := a)
  rw [lookup_pendingOrCached hp hdir hino]
  exact getattr_cached hn hkind hclean ha

theorem found_stored (hkind : n.kind = .file) (hclean : s.dirtySizes[ino]? = none)
    (hattr : s.cachedAttr cfg io ino = none) (hstat : io.statAttr = none) {o : Stored}
    (ho : s.bucket n.key = some o) : s.found cfg io parent name = some (ino, .file, o.bytes.length) := by
  obtain ⟨t, ht⟩ : ∃ t, Vfs.getattr cfg io ino s = (.ok (cfg.storedAttr ino o), t) :=
    getattr_stored hn hkind hclean hattr hstat ho
  apply found_of_ok (a := cfg.storedAttr ino o)
  rw [lookup_pendingOrCached hp hdir hino]
  exact ht

theorem found_gone (hkind : n.kind = .file) (hclean : s.dirtySizes[ino]? = none)
    (hattr : s.cachedAttr cfg io ino = none) (hstat : io.statAttr = none)
    (hmissing : s.bucket n.key = none) : s.found cfg io parent name = none := by
  obtain ⟨e, he⟩ : ∃ e, Vfs.getattr cfg io ino s = (.error e, s) :=
    getattr_missing hn hkind hclean hattr hstat hmissing
  apply found_of_error
  rw [lookup_pendingOrCached hp hdir hino]
  exact he

/-- A file whose attributes are not those of the cache is found as a file or not at all. -/
theorem found_asFile (hkind : n.kind = .file) (hstat : io.statAttr = none)
    (hasked : s.dirtySizes[ino]? ≠ none ∨ s.cachedAttr cfg io ino = none) :
    s.found cfg io parent name = none ∨ ∃ size, s.found cfg io parent name = some (ino, .file, size) := by
  cases hdirty : s.dirtySizes[ino]? with
  | some e => exact Or.inr ⟨e.1, found_dirty hp hdir hino hn hkind hdirty⟩
  | none =>
    have hattr := hasked.resolve_left (not_not.mpr hdirty)
    cases ho : s.bucket n.key with
    | some o => exact Or.inr ⟨_, found_stored hp hdir hino hn hkind hdirty hattr hstat ho⟩
    | none => exact Or.inl (found_gone hp hdir hino hn hkind hdirty hattr hstat ho)

end Cached

/-- A file with unflushed writes is found the same way by all lookups. -/
theorem found_unflushed_eq (hwf : s.inodes.Wf) (hp : s.inodes.get parent = some p)
    (hdir : p.kind = .dir) (h : s.Unflushed p name) (io io' : Io) :
    s.found cfg io parent name = s.found cfg io' parent name := by
  obtain ⟨ino, hino, hdirty⟩ := h
  obtain ⟨n, hn, -⟩ := hwf.byKey _ ino hino
  obtain ⟨e, he⟩ := Option.ne_none_iff_exists'.mp hdirty
  have hio := fun io => @pendingOrCached_unflushed cfg io s parent ino name p hino hdirty
  cases hkind : n.kind with
  | dir => rw [found_cachedDir hp hdir (hio io) hn hkind, found_cachedDir hp hdir (hio io') hn hkind]
  | file => rw [found_dirty hp hdir (hio io) hn hkind he, found_dirty hp hdir (hio io') hn hkind he]

end Found

/-! ## After a listing -/

theorem hasGlobCharacter_child {key name : Str} (hkey : hasGlobCharacter key = false)
    (hname : hasGlobCharacter name = false) : hasGlobCharacter (key ++ name ++ ['/']) = false := by
  rw [hasGlobCharacter] at hkey hname
  rw [hasGlobCharacter, List.any_append, List.any_append, hkey, hname]
  rfl

/-- Cached and direct lookups of the name agree: after a listing of its directory, one
that is answered while that is fresh finds what one finds that asks the bucket. -/
def Vfs.LookupsAgree (s : Vfs) (cfg : VfsConfig) (parent : Nat) (p : Node) (name : Str) : Prop :=
  ∀ io es t, s.cachedDir cfg io parent = none → HonestList s.bucket (cfg.url p.key) io.list →
    Vfs.readdir cfg io parent s = (.ok es, t) →
    ∀ io₁ io₂, Faultless cfg t.bucket (p.key ++ name ++ ['/']) io₁ →
      Faultless cfg t.bucket (p.key ++ name ++ ['/']) io₂ →
      t.cachedDir cfg io₁ parent ≠ none → t.cachedDir cfg io₂ parent = none →
        t.found cfg io₁ parent name = t.found cfg io₂ parent name

/-- The name stands for one thing at most: nothing is below it, or it is no file and
its directory is not taken for one, at least not when its attributes are asked for. -/
def Vfs.Unambiguous (s : Vfs) (cfg : VfsConfig) (p : Node) (name : Str) : Prop :=
  (¬ ∃ key, cfg.Lists s.bucket (p.key ++ name ++ ['/']) key) ∨
    s.bucket (p.key ++ name) = none ∧ ∀ ino n,
      s.inodes.lookupKey (p.key ++ name ++ ['/']) = some ino → s.inodes.get ino = some n →
        n.kind = .file → s.dirtySizes[ino]? = none ∧ cfg.dirTtl ≤ cfg.attrTtl

/-- A directory of a mount whose files are all closed, and a name that can be in it. -/
structure Askable (m : Mounted) (parent : Nat) (p : Node) (name : Str) : Prop where
  kept : m.Kept
  writers : ∀ fh, m.vfs.writer fh = none
  parent : m.vfs.inodes.get parent = some p
  dir : p.kind = .dir
  child : IsChildName name
  literal : hasGlobCharacter name = false

section Listed

variable {cfg : VfsConfig} {m : Mounted} {s : Vfs} {io : Io} {parent : Nat} {p : Node} {name : Str}
  {acc : Vfs.Listing} {t : InodeTable} {objs : List Object}

theorem listed_cachedDir (s : Vfs) (acc : Vfs.Listing) (t : InodeTable) (io io' : Io) (parent : Nat) :
    (s.listed io parent acc t).cachedDir cfg io' parent =
      if io'.instant - io.instant < cfg.dirTtl then some acc.entries else none := by
  have hget : (s.listed io parent acc t).dirCache[parent]? = some (acc.entries, io.instant) :=
    Std.ExtTreeMap.getElem?_insert_self
  rw [Vfs.cachedDir, hget, Option.bind_some]

theorem listed_cachedAttr {i : Nat} {a : Attr} {io' : Io}
    (h : (s.listed io parent acc t).attrCache[i]? = some (a, io.instant)) :
    (s.listed io parent acc t).cachedAttr cfg io' i =
      if io'.instant - io.instant < cfg.attrTtl then some a else none := by
  rw [Vfs.cachedAttr, h, Option.bind_some]

/-- A listing makes no file one with unflushed writes. -/
theorem listed_unflushed (hkept : m.Kept) (hg : Gathered cfg m.vfs.inodes p objs acc t) :
    (m.vfs.listed io parent acc t).Unflushed p name ↔ m.vfs.Unflushed p name := by
  constructor
  · rintro ⟨ino, hino, hdirty⟩
    rcases hg.grows.introduced _ ino hino with hold | ⟨hnext, -⟩
    · exact ⟨ino, hold, hdirty⟩
    · exact absurd (hkept.numbered.sizes ino hdirty) (Nat.not_lt.mpr hnext)
  · rintro ⟨ino, hino, hdirty⟩
    exact ⟨ino, hg.grows.retains _ ino hino, hdirty⟩

/-- The inode of a listed file is that of a file. -/
theorem listed_file (hkept : m.Kept) (hg : Gathered cfg m.vfs.inodes p objs acc t)
    (hname : IsChildName name) {ino : Nat} {n : Node}
    (hino : t.lookupKey (p.key ++ name) = some ino) (hn : t.get ino = some n) : n.kind = .file := by
  obtain ⟨m', hm', hkey⟩ := hg.wf.byKey _ ino hino
  obtain rfl : n = m' := Option.some.inj (hn.symm.trans hm')
  rcases hg.grows.introduced _ ino hino with hold | ⟨-, q, hq, x, hx, -⟩
  · obtain ⟨n', hn', -⟩ := hkept.wf.byKey _ ino hold
    obtain rfl : n = n' := Option.some.inj (hn.symm.trans (hg.grows.nodes ino n' hn'))
    exact hkept.slash.file hn' hname hkey
  · -- a directory that was listed has a slash at the end
    obtain rfl : n = q := Option.some.inj (hn.symm.trans hq)
    cases hkind : n.kind with
    | file => rfl
    | dir =>
      rw [hkind] at hx
      exact absurd hx (not_slash_of_name hname p.key (p.key ++ x))

/-- The inode of a listed directory is that of a directory, unless the table knew it
as a file. -/
theorem listed_dir (hg : Gathered cfg m.vfs.inodes p objs acc t)
    (hfiles : ∀ obj ∈ objs, ∀ x, obj.child p.key = some (x, .file) → '/' ∉ x) {ino : Nat} {n : Node}
    (hino : t.lookupKey (p.key ++ name ++ ['/']) = some ino) (hn : t.get ino = some n)
    (hkind : n.kind = .file) :
    m.vfs.inodes.lookupKey (p.key ++ name ++ ['/']) = some ino := by
  rcases hg.grows.introduced _ ino hino with hold | ⟨-, q, hq, x, hx, obj, hobj, hchild⟩
  · exact hold
  · obtain rfl : n = q := Option.some.inj (hn.symm.trans hq)
    rw [hkind] at hx hchild
    have hsame : x = name ++ ['/'] := by
      have hx' : p.key ++ name ++ ['/'] = p.key ++ x := hx
      rw [List.append_assoc] at hx'
      exact (List.append_cancel_left hx').symm
    refine absurd ?_ (hfiles obj hobj x hchild)
    rw [hsame]
    simp

end Listed

/-! ## Entries of a literal directory -/

section Entries

variable {cfg : VfsConfig} {m : Mounted} {io io' : Io} {parent : Nat} {p : Node} {name : Str}
  {acc : Vfs.Listing} {t : InodeTable} {sent list : List Object} {e : DirEntry}

/-- What a listing of the directory leaves behind. -/
theorem Askable.listed (h : Askable m parent p name) (hnone : m.vfs.cachedDir cfg io parent = none)
    (hlist : HonestList m.vfs.bucket (cfg.url p.key) io.list) {es : List DirEntry} {s : Vfs}
    (hread : Vfs.readdir cfg io parent m.vfs = (.ok es, s)) :
    ∃ sent acc t, Sent m.vfs.bucket (cfg.url p.key) sent io.list ∧
      Gathered cfg m.vfs.inodes p sent acc t ∧ s = m.vfs.listed io parent acc t := by
  obtain ⟨sent, hsent⟩ := hlist.sent rfl
  have hlist' : io.list = [] ++ sent ++ listEnd (cfg.url p.key) (!sent.isEmpty) := hsent.list_eq
  obtain ⟨-, -, acc, t, -, -, hg, hrun⟩ := readdir_gathered h.parent h.dir h.kept.wf hnone h.writers
    hlist' (by rw [List.nil_append]; exact hsent.err)
  rw [List.nil_append] at hg
  refine ⟨sent, acc, t, hsent, hg, ?_⟩
  rw [hread] at hrun
  exact (Prod.mk.inj hrun).2

variable (hsent : Sent m.vfs.bucket (cfg.url p.key) sent list)
  (hlit : hasGlobCharacter p.key = false) (hg : Gathered cfg m.vfs.inodes p sent acc t)

include hsent hlit hg

theorem stored_file (he : e ∈ acc.entries) (hname : IsChildName e.name) (hkind : e.kind = .file)
    (io : Io) (parent : Nat) :
    ∃ o a, m.vfs.bucket (p.key ++ e.name) = some o ∧
      (m.vfs.listed io parent acc t).attrCache[e.ino]? = some (a, io.instant) ∧
        a.ino = e.ino ∧ a.kind = .file ∧ a.size = o.bytes.length := by
  obtain ⟨e', he', hino, obj, hobj, hchild, hget⟩ := hg.stored he io parent
  -- the other entry with this inode has this key, so it is of this file
  have hsame : p.child e'.name e'.kind = p.child e.name e.kind :=
    hg.wf.key_unique ((hg.known e' he').trans (congrArg some hino)) (hg.known e he)
  rw [hkind] at hsame
  cases hkind' : e'.kind with
  | dir =>
    rw [hkind'] at hsame
    exact absurd hsame.symm (not_slash_of_name hname p.key (p.key ++ e'.name))
  | file =>
    rw [hkind'] at hsame hchild hget
    rw [show e'.name = e.name from List.append_cancel_left hsame] at hchild
    obtain ⟨-, o, ho, hsize⟩ := hsent.file_child hlit hobj hchild
    refine ⟨o, _, ho, hget, rfl, rfl, ?_⟩
    show (max obj.size 0).toNat = o.bytes.length
    rw [hsize]
    simp

theorem stored_dir (he : e ∈ acc.entries) (hkind : e.kind = .dir) (io : Io) (parent : Nat) :
    (m.vfs.listed io parent acc t).attrCache[e.ino]? = some (cfg.dirAttr e.ino, io.instant) := by
  obtain ⟨e', he', hino, obj, hobj, hchild, hget⟩ := hg.stored he io parent
  have hsame : p.child e'.name e'.kind = p.child e.name e.kind :=
    hg.wf.key_unique ((hg.known e' he').trans (congrArg some hino)) (hg.known e he)
  rw [hkind] at hsame
  cases hkind' : e'.kind with
  | dir =>
    rw [hkind'] at hget
    exact hget
  | file =>
    -- a listed file has no slash in its name
    rw [hkind'] at hsame hchild
    have hname : e'.name = e.name ++ ['/'] := by
      have hsame' : p.key ++ e'.name = p.key ++ e.name ++ ['/'] := hsame
      rw [List.append_assoc] at hsame'
      exact List.append_cancel_left hsame'
    have hslash := (hsent.file_child hlit hobj hchild).1
    rw [hname] at hslash
    exact absurd (by simp) hslash

/-- A cached file is found as it is stored. -/
theorem Askable.cached_file (h : Askable m parent p name) (hclean : ¬ m.vfs.Unflushed p name)
    (hfind : acc.entries.find? (fun e => e.name = name) = some e) (hkind : e.kind = .file)
    (hstat : io'.statAttr = none) (hfresh : io'.instant - io.instant < cfg.dirTtl) :
    ∃ o, m.vfs.bucket (p.key ++ name) = some o ∧ t.lookupKey (p.key ++ name) = some e.ino ∧
      (m.vfs.listed io parent acc t).found cfg io' parent name =
        some (e.ino, .file, o.bytes.length) := by
  have he := List.mem_of_find?_eq_some hfind
  have hname : e.name = name := by simpa using List.find?_some hfind
  have hchild : IsChildName e.name := hname ▸ h.child
  obtain ⟨o, a, ho, hget, hino, hattr, hsize⟩ := stored_file hsent hlit hg he hchild hkind io parent
  have hknown : t.lookupKey (p.key ++ name) = some e.ino := by
    have hchild := hg.known e he
    rw [hkind, hname] at hchild
    exact hchild
  rw [hname] at ho
  refine ⟨o, ho, hknown, ?_⟩
  have hp := hg.grows.nodes parent p h.parent
  have hclean' : ¬ (m.vfs.listed io parent acc t).Unflushed p name :=
    (listed_unflushed h.kept hg).not.mpr hclean
  have hcached : (m.vfs.listed io parent acc t).pendingOrCached cfg io' parent (p.key ++ name) name =
      some e.ino := by
    rw [pendingOrCached_flushed hclean', listed_cachedDir, if_pos hfresh, Option.bind_some, hfind,
      Option.map_some]
  obtain ⟨n, hn, hkey⟩ := hg.wf.byKey _ e.ino hknown
  have hfile := listed_file h.kept hg h.child hknown hn
  have hdirty : m.vfs.dirtySizes[e.ino]? = none := by
    by_contra hdirty
    exact hclean' ⟨e.ino, hknown, hdirty⟩
  have hattrs := @listed_cachedAttr cfg m.vfs io parent acc t e.ino a io' hget
  by_cases hold : io'.instant - io.instant < cfg.attrTtl
  · rw [if_pos hold] at hattrs
    rw [found_cachedAttr hp h.dir hcached hn hfile hdirty hattrs, hino, hattr, hsize]
  · rw [if_neg hold] at hattrs
    rw [← hkey] at ho
    exact found_stored hp h.dir hcached hn hfile hdirty hattrs hstat ho

/-- Where a listed directory is cached, and what is known of it. -/
theorem Askable.cached_dir (h : Askable m parent p name) (hclean : ¬ m.vfs.Unflushed p name)
    (hfind : acc.entries.find? (fun e => e.name = name) = some e) (hkind : e.kind = .dir)
    (hfresh : io'.instant - io.instant < cfg.dirTtl) :
    t.lookupKey (p.key ++ name ++ ['/']) = some e.ino ∧
      (m.vfs.listed io parent acc t).pendingOrCached cfg io' parent (p.key ++ name) name = some e.ino ∧
      (m.vfs.listed io parent acc t).cachedAttr cfg io' e.ino =
        (if io'.instant - io.instant < cfg.attrTtl then some (cfg.dirAttr e.ino) else none) ∧
      ∃ n, t.get e.ino = some n ∧ (n.kind = .file →
        m.vfs.inodes.lookupKey (p.key ++ name ++ ['/']) = some e.ino ∧
          m.vfs.inodes.get e.ino = some n) := by
  have he := List.mem_of_find?_eq_some hfind
  have hname : e.name = name := by simpa using List.find?_some hfind
  have hknown := hg.known e he
  rw [hkind, hname] at hknown
  have hclean' : ¬ (m.vfs.listed io parent acc t).Unflushed p name :=
    (listed_unflushed h.kept hg).not.mpr hclean
  obtain ⟨n, hn, -⟩ := hg.wf.byKey _ e.ino hknown
  refine ⟨hknown, ?_, listed_cachedAttr (stored_dir hsent hlit hg he hkind io parent), n, hn, ?_⟩
  · rw [pendingOrCached_flushed hclean', listed_cachedDir, if_pos hfresh, Option.bind_some, hfind,
      Option.map_some]
  · intro hfile
    have hold := listed_dir hg (fun obj hobj x hx => (hsent.file_child hlit hobj hx).1) hknown hn hfile
    obtain ⟨n', hn', -⟩ := h.kept.wf.byKey _ e.ino hold
    obtain rfl : n = n' := Option.some.inj (hn.symm.trans (hg.grows.nodes e.ino n' hn'))
    exact ⟨hold, hn'⟩

end Entries

section Agree

variable {cfg : VfsConfig} {m : Mounted} {parent : Nat} {p : Node} {name : Str}

/-- Where the name is unambiguous, the lookups agree. -/
theorem Askable.agree (h : Askable m parent p name)
    (hcond : cfg.dirTtl = 0 ∨ hasGlobCharacter p.key = true ∨ m.vfs.Unflushed p name ∨
      m.vfs.Unambiguous cfg p name) : m.vfs.LookupsAgree cfg parent p name := by
  intro io es s hnone hlist hread io₁ io₂ hio₁ hio₂ hcached hexpired
  obtain ⟨sent, acc, t, hsent, hg, rfl⟩ := h.listed hnone hlist hread
  have hp := hg.grows.nodes parent p h.parent
  by_cases hclean : m.vfs.Unflushed p name
  · exact found_unflushed_eq hg.wf hp h.dir ((listed_unflushed h.kept hg).mpr hclean) io₁ io₂
  · have hclean' : ¬ (m.vfs.listed io parent acc t).Unflushed p name :=
      (listed_unflushed h.kept hg).not.mpr hclean
    have hdirect : (m.vfs.listed io parent acc t).pendingOrCached cfg io₂ parent (p.key ++ name) name =
        none := by
      rw [pendingOrCached_flushed hclean', hexpired, Option.bind_none]
    have hfresh : io₁.instant - io.instant < cfg.dirTtl := by
      by_contra hold
      rw [listed_cachedDir, if_neg hold] at hcached
      exact hcached rfl
    cases hfind : acc.entries.find? (fun e => e.name = name) with
    | none =>
      -- what is not listed is asked for
      refine found_direct_eq hp h.dir ?_ hio₁ hdirect hio₂
      rw [pendingOrCached_flushed hclean', listed_cachedDir, if_pos hfresh, Option.bind_some, hfind]
      rfl
    | some e =>
      have he := List.mem_of_find?_eq_some hfind
      have hname : e.name = name := by simpa using List.find?_some hfind
      have hlit : hasGlobCharacter p.key = false := by
        by_contra hglob
        rw [Bool.not_eq_false] at hglob
        obtain ⟨obj, hobj, hchild, -⟩ := hg.entries e he
        rcases h.kept.slash parent p h.parent h.dir with hnil | ⟨d, hd⟩
        · rw [hnil] at hglob
          cases hglob
        · have hend := hsent.glob_child hglob hd hobj hchild
          rw [hname, Str.endsWith_of_not_mem h.child.2] at hend
          cases hend
      have hcond : m.vfs.Unambiguous cfg p name := by
        rcases hcond with hzero | hglob | hdirty | hone
        · omega
        · rw [hlit] at hglob
          cases hglob
        · exact absurd hdirty hclean
        · exact hone
      cases hkind : e.kind with
      | file =>
        obtain ⟨o, ho, hknown, hfound⟩ :=
          h.cached_file hsent hlit hg hclean hfind hkind hio₁.statAttr hfresh
        rw [hfound, found_file hp h.dir hdirect hio₂ ho]
        exact congrArg (fun i => some (i, NodeKind.file, o.bytes.length))
          (congrArg Prod.fst (InodeTable.intern_of_known hknown .file parent)).symm
      | dir =>
        obtain ⟨obj, hobj, hchild, -⟩ := hg.entries e he
        rw [hkind, hname] at hchild
        obtain ⟨-, key, hbucket, hkey⟩ := hsent.dir_child hlit hobj hchild
        have hany : ∃ key, cfg.Lists m.vfs.bucket (p.key ++ name ++ ['/']) key :=
          ⟨key, hbucket, (takes_literal (hasGlobCharacter_child hlit h.literal) key).mpr hkey⟩
        obtain ⟨hmissing, hfiles⟩ := hcond.resolve_left (not_not.mpr hany)
        obtain ⟨hknown, hpending, hattr, n, hn, hold⟩ :=
          h.cached_dir hsent hlit hg hclean hfind hkind hfresh
        have hino : (t.intern (p.key ++ name ++ ['/']) .dir parent).1 = e.ino :=
          congrArg Prod.fst (InodeTable.intern_of_known hknown .dir parent)
        have hfound := found_dir hp h.dir hdirect hio₂ hmissing hany
        rw [show ((m.vfs.listed io parent acc t).inodes.intern _ _ _).1 = e.ino from hino] at hfound
        rw [hfound]
        cases hnode : n.kind with
        | dir => exact found_cachedDir hp h.dir hpending hn hnode
        | file =>
          obtain ⟨hold, hget⟩ := hold hnode
          obtain ⟨hdirty, httl⟩ := hfiles e.ino n hold hget hnode
          rw [if_pos (hfresh.trans_le httl)] at hattr
          exact found_cachedAttr hp h.dir hpending hn hnode hdirty hattr

/-- A server may list the common prefixes of a directory first, so that what is below
the name hides a file. -/
theorem Askable.exists_hiding (h : Askable m parent p name) (hlit : hasGlobCharacter p.key = false)
    {objs : List StoredObject} (hobjs : Describes objs m.vfs.bucket)
    (hany : ∃ key, cfg.Lists m.vfs.bucket (p.key ++ name ++ ['/']) key) :
    ∃ io sent acc t e, m.vfs.cachedDir cfg io parent = none ∧
      HonestList m.vfs.bucket (cfg.url p.key) io.list ∧
      Sent m.vfs.bucket (cfg.url p.key) sent io.list ∧ Gathered cfg m.vfs.inodes p sent acc t ∧
      Vfs.readdir cfg io parent m.vfs = (.ok acc.entries, m.vfs.listed io parent acc t) ∧
      acc.entries.find? (fun e => e.name = name) = some e ∧ e.kind = .dir := by
  -- a time at which an older listing has expired
  obtain ⟨time, hexpired⟩ : ∃ time, ∀ io : Io, io.instant = time →
      m.vfs.cachedDir cfg io parent = none := by
    cases hold : m.vfs.dirCache[parent]? with
    | none => exact ⟨0, fun io _ => by rw [Vfs.cachedDir, hold, Option.bind_none]⟩
    | some c =>
      refine ⟨c.2 + cfg.dirTtl, fun io hio => ?_⟩
      rw [Vfs.cachedDir, hold, Option.bind_some, if_neg]
      omega
  let io : Io := { instant := time, list := onePage percentEncodeAll objs (cfg.url p.key) }
  let page := pageOf percentEncodeAll ((listV2Request (cfg.url p.key)).items objs)
  let dirs := page.commonPrefixes.filterMap (commonPrefixObject (cfg.url p.key))
  let files := page.contents.filterMap (contentObject (cfg.url p.key))
  have hsent : Sent m.vfs.bucket (cfg.url p.key) (dirs ++ files) io.list :=
    sent_onePage hobjs (keepsNames_encodeAll objs)
  have hnone := hexpired io rfl
  have hlist : io.list = dirs ++ files ++ listEnd (cfg.url p.key) (!(dirs ++ files).isEmpty) :=
    hsent.list_eq
  obtain ⟨acc₁, t₁, acc, t, hfirst, hpre, hg, hrun⟩ :=
    readdir_gathered h.parent h.dir h.kept.wf hnone h.writers hlist hsent.err
  have hdirs : ∀ obj ∈ dirs, ∀ x, obj.child p.key = some x → x.2 = .dir := by
    intro obj hobj x hx
    obtain ⟨cp, -, hcp⟩ := List.mem_filterMap.mp hobj
    obtain ⟨u, -, rfl⟩ := Option.map_eq_some_iff.mp hcp
    simp only [Object.child, Option.bind_some] at hx
    split at hx
    · cases hx
    · obtain rfl := Option.some.inj hx
      rfl
  have hfiles : ∀ obj ∈ files, ∀ x, obj.child p.key = some x → x.2 = .file := by
    intro obj hobj x hx
    obtain ⟨c, -, hc⟩ := List.mem_filterMap.mp hobj
    obtain ⟨u, -, rfl⟩ := Option.map_eq_some_iff.mp hc
    simp only [Object.child, Option.bind_some] at hx
    split at hx
    · cases hx
    · obtain rfl := Option.some.inj hx
      rfl
  obtain ⟨key, hbucket, htakes⟩ := hany
  have hbelow := (takes_literal (hasGlobCharacter_child hlit h.literal) key).mp htakes
  obtain ⟨obj, hobj, hchild⟩ := hsent.exists_dir hlit h.child.1 h.child.2 hbucket hbelow
  have hobj : obj ∈ dirs := by
    rcases List.mem_append.mp hobj with hobj | hobj
    · exact hobj
    · cases hfiles obj hobj _ hchild
  obtain ⟨e, he, hname⟩ := List.mem_map.mp (hfirst.all obj hobj _ hchild)
  obtain ⟨obj', hobj', hchild', -⟩ := hfirst.entries e he
  refine ⟨io, dirs ++ files, acc, t, e, hnone, honestList_onePage hobjs (keepsNames_encodeAll objs) rfl, hsent, hg, hrun, ?_,
    hdirs obj' hobj' _ hchild'⟩
  -- there is one entry with the name
  obtain ⟨e', hfind⟩ : ∃ e', acc.entries.find? (fun e => e.name = name) = some e' := by
    apply Option.isSome_iff_exists.mp
    rw [List.find?_isSome]
    exact ⟨e, hpre.subset he, decide_eq_true hname⟩
  have hname' : e'.name = name := by simpa using List.find?_some hfind
  rw [hfind, List.inj_on_of_nodup_map hg.nodup (List.mem_of_find?_eq_some hfind) (hpre.subset he)
    (hname'.trans hname.symm)]

/-- Where the lookups agree, the name is unambiguous. -/
theorem Askable.unambiguous (h : Askable m parent p name) {objs : List StoredObject}
    (hobjs : Describes objs m.vfs.bucket) (hagree : m.vfs.LookupsAgree cfg parent p name)
    (httl : cfg.dirTtl ≠ 0) (hlit : hasGlobCharacter p.key = false)
    (hclean : ¬ m.vfs.Unflushed p name) : m.vfs.Unambiguous cfg p name := by
  by_contra hnot
  have hany : ∃ key, cfg.Lists m.vfs.bucket (p.key ++ name ++ ['/']) key := by
    by_contra hempty
    exact hnot (Or.inl hempty)
  obtain ⟨io, sent, acc, t, e, hnone, hlist, hsent, hg, hrun, hfind, hkind⟩ :=
    h.exists_hiding hlit hobjs hany
  have hp := hg.grows.nodes parent p h.parent
  -- asked after some time, and asked when the listing has expired
  let ask (k : Nat) : Io :=
    answering cfg percentEncodeAll objs (p.key ++ name ++ ['/']) { instant := io.instant + k }
  have hask : ∀ k, Faultless cfg m.vfs.bucket (p.key ++ name ++ ['/']) (ask k) :=
    fun k => faultless_answering hobjs (keepsNames_encodeAll objs) _ _
  have hage : ∀ k, (ask k).instant - io.instant = k := fun k => Nat.add_sub_cancel_left io.instant k
  have hexpired : (m.vfs.listed io parent acc t).cachedDir cfg (ask cfg.dirTtl) parent = none := by
    rw [listed_cachedDir, hage, if_neg (Nat.lt_irrefl _)]
  have hsame : ∀ k < cfg.dirTtl, (m.vfs.listed io parent acc t).found cfg (ask k) parent name =
      (m.vfs.listed io parent acc t).found cfg (ask cfg.dirTtl) parent name := by
    intro k hk
    refine hagree io acc.entries _ hnone hlist hrun (ask k) (ask cfg.dirTtl) (hask k) (hask _) ?_ hexpired
    rw [listed_cachedDir, hage, if_pos hk]
    simp
  have hclean' : ¬ (m.vfs.listed io parent acc t).Unflushed p name :=
    (listed_unflushed h.kept hg).not.mpr hclean
  have hdirect : (m.vfs.listed io parent acc t).pendingOrCached cfg (ask cfg.dirTtl) parent
      (p.key ++ name) name = none := by
    rw [pendingOrCached_flushed hclean', hexpired, Option.bind_none]
  have hcached : ∀ k < cfg.dirTtl, _ := fun k hk =>
    @Askable.cached_dir cfg m io (ask k) parent p name acc t sent io.list e hsent hlit hg h hclean hfind
      hkind (by rw [hage]; exact hk)
  have hpos := Nat.pos_of_ne_zero httl
  cases hfile : m.vfs.bucket (p.key ++ name) with
  | some o =>
    -- the file is hidden
    have hzero := hsame 0 hpos
    rw [found_file hp h.dir hdirect (hask _) hfile] at hzero
    obtain ⟨hknown, hpending, hattr, n, hn, -⟩ := hcached 0 hpos
    cases hnode : n.kind with
    | dir =>
      rw [found_cachedDir hp h.dir hpending hn hnode] at hzero
      simp at hzero
    | file =>
      have hne : e.ino ≠ (t.intern (p.key ++ name) .file parent).1 := by
        intro heq
        have hgrows : t.Grows (t.intern (p.key ++ name) .file parent).2 fun _ _ => True :=
          (InodeTable.Grows.refl t _).intern hg.wf (Nat.le_refl _) trivial parent
        have hwf := hg.wf.intern (p.key ++ name) .file parent
        have hkey := hwf.key_unique (hgrows.retains _ _ hknown)
          ((t.lookupKey_intern (p.key ++ name) .file parent).trans (congrArg some heq.symm))
        exact not_slash_of_name h.child p.key (p.key ++ name) hkey.symm
      by_cases hasked : m.vfs.dirtySizes[e.ino]? ≠ none ∨
          (m.vfs.listed io parent acc t).cachedAttr cfg (ask 0) e.ino = none
      · rcases found_asFile hp h.dir hpending hn hnode rfl hasked with hgone | ⟨size, hfound⟩
        · rw [hgone] at hzero
          cases hzero
        · rw [hfound] at hzero
          exact hne (Prod.mk.inj (Option.some.inj hzero)).1
      · obtain ⟨hdirty, hsome⟩ := not_or.mp hasked
        rw [not_not] at hdirty
        split at hattr
        · rw [found_cachedAttr hp h.dir hpending hn hnode hdirty hattr] at hzero
          simp [VfsConfig.dirAttr] at hzero
        · exact hsome hattr
  | none =>
    -- the directory is taken for a file
    obtain ⟨ino, n, hino, hn, hnode, hbad⟩ : ∃ ino n,
        m.vfs.inodes.lookupKey (p.key ++ name ++ ['/']) = some ino ∧ m.vfs.inodes.get ino = some n ∧
          n.kind = .file ∧ ¬ (m.vfs.dirtySizes[ino]? = none ∧ cfg.dirTtl ≤ cfg.attrTtl) := by
      by_contra hnone
      push Not at hnone
      refine hnot (Or.inr ⟨hfile, fun ino n hino hn hnode => ?_⟩)
      by_contra hbad
      exact hbad (hnone ino n hino hn hnode)
    have hknown := (hcached 0 hpos).1
    obtain rfl : ino = e.ino := Option.some.inj ((hg.grows.retains _ ino hino).symm.trans hknown)
    have hfound := found_dir hp h.dir hdirect (hask _) hfile hany
    have hfile' : ∀ k < cfg.dirTtl, m.vfs.dirtySizes[e.ino]? ≠ none ∨
        (m.vfs.listed io parent acc t).cachedAttr cfg (ask k) e.ino = none → False := by
      intro k hk hasked
      have heq := hsame k hk
      rw [hfound] at heq
      rcases found_asFile hp h.dir (hcached k hk).2.1 (hg.grows.nodes e.ino n hn) hnode rfl hasked with
        hgone | ⟨size, hfile⟩
      · rw [hgone] at heq
        cases heq
      · rw [hfile] at heq
        simp at heq
    by_cases hdirty : m.vfs.dirtySizes[e.ino]? = none
    · have hlt : cfg.attrTtl < cfg.dirTtl := Nat.lt_of_not_le fun hle => hbad ⟨hdirty, hle⟩
      refine hfile' cfg.attrTtl hlt (Or.inr ?_)
      rw [(hcached cfg.attrTtl hlt).2.2.1, hage, if_neg (Nat.lt_irrefl _)]
    · exact hfile' 0 hpos (Or.inl hdirty)

end Agree

/-- **When cached and direct lookups agree.** In every state that a mount reaches, with
no file open for writing, a lookup from a fresh listing of a directory finds what one
finds that asks the bucket, whatever the server's pages, if and only if listings are
not cached, the directory's key has a wildcard (it then shows none of its children
under their names), the file has unflushed writes, or the name is unambiguous. -/
theorem cached_lookup_agrees_iff (cfg : VfsConfig) (rootKey : Str)
    (hroot : rootKey = [] ∨ ∃ d, rootKey = d ++ ['/']) (bucket : Str → Option Stored)
    (es : List MountEvent) (m : Mounted) (hrun : Mounted.run cfg (.new rootKey bucket) es = some m)
    (hnamed : Machine.Along (Mounted.step cfg) Mounted.Named (.new rootKey bucket) es)
    (objs : List StoredObject) (hobjs : Describes objs m.vfs.bucket)
    (hwriters : ∀ fh, m.vfs.writer fh = none) (parent : Nat) (p : Node)
    (hp : m.vfs.inodes.get parent = some p) (hdir : p.kind = .dir) (name : Str)
    (hname : IsChildName name) (hlit : hasGlobCharacter name = false) :
    m.vfs.LookupsAgree cfg parent p name ↔
      cfg.dirTtl = 0 ∨ hasGlobCharacter p.key = true ∨ m.vfs.Unflushed p name ∨
        m.vfs.Unambiguous cfg p name := by
  have h : Askable m parent p name :=
    ⟨Mounted.run_kept hnamed hrun (Mounted.new_kept hroot bucket), hwriters, hp, hdir, hname, hlit⟩
  refine ⟨fun hagree => ?_, h.agree⟩
  by_contra hnot
  obtain ⟨httl, hnot⟩ := not_or.mp hnot
  obtain ⟨hglob, hnot⟩ := not_or.mp hnot
  obtain ⟨hclean, hnot⟩ := not_or.mp hnot
  exact hnot (h.unambiguous hobjs hagree httl (Bool.not_eq_true _ ▸ hglob) hclean)

/-! ## A file that hides behind a directory -/

namespace CachedLookup

/-- A mount that keeps listings for a while. -/
def keeping : VfsConfig := { VfsConfig.sample with attrTtl := 5, dirTtl := 5 }

/-- A bucket with a file. -/
def oneFile : List (Str × List UInt8) := [("x".toList, [7])]

theorem bucketOf_cons (k : Str) (b : List UInt8) (l : List (Str × List UInt8)) :
    bucketOf ((k, b) :: l) = Function.update (bucketOf l) k (some ⟨b, some 0⟩) := by
  funext key
  by_cases hkey : key = k
  · simp [bucketOf, hkey]
  · have hbeq : (key == k) = false := by simpa using hkey
    simp [bucketOf, List.lookup_cons, hkey, hbeq]

/-- A second file is created, written and closed. -/
def secondFile : List MountEvent :=
  [.op {} (.create rootInode "y".toList), .op {} (.write 1 0 [1]), .op {} (.release 1)]

/-- The same with an object below its name. -/
def fileAndDir : List (Str × List UInt8) := [("x".toList, [7]), ("x/y".toList, [])]

/-- What the requests on a name are told some time later. -/
def io (objects : List (Str × List UInt8)) (dirKey : String) (instant : Nat) : Io :=
  answering keeping urlEncode (objectsOf objects) dirKey.toList { instant := instant }

/-- The mount after the root is listed. -/
def afterListing : Vfs :=
  (Vfs.readdir keeping (io fileAndDir "" 0) rootInode (Vfs.new [] (bucketOf fileAndDir))).2

end CachedLookup

open CachedLookup in
/-- A file that was written, with nothing below its name. -/
theorem cached_lookup_agrees_written :
    ∃ m, Mounted.run keeping (.new [] (bucketOf oneFile)) secondFile = some m ∧
      m.vfs.inodes.lookupKey "y".toList = some 2 ∧
      m.vfs.LookupsAgree keeping rootInode ⟨[], .dir, rootInode⟩ "y".toList := by
  obtain ⟨m, hm, hbucket⟩ : ∃ m,
      Mounted.run keeping (.new [] (bucketOf oneFile)) secondFile = some m ∧
        m.vfs.bucket = Function.update (bucketOf oneFile) "y".toList (some ⟨[1], some 0⟩) :=
    ⟨_, rfl, rfl⟩
  obtain ⟨t, ht, hino, hroot, hclosed⟩ : ∃ t,
      Mounted.run keeping (.new [] (bucketOf oneFile)) secondFile = some t ∧
        t.vfs.inodes.lookupKey "y".toList = some 2 ∧
        t.vfs.inodes.get rootInode = some ⟨[], .dir, rootInode⟩ ∧ t.vfs.handles.toList = [] :=
    Machine.exists_run_of_any (by decide +kernel)
  obtain rfl := Option.some.inj (hm.symm.trans ht)
  rw [← bucketOf_cons] at hbucket
  have hobjs : Describes (objectsOf (("y".toList, [1]) :: oneFile)) m.vfs.bucket :=
    hbucket ▸ describes_objectsOf (by decide)
  have hwriters : ∀ fh, m.vfs.writer fh = none := by
    intro fh
    have hnone : m.vfs.handles[fh]? = none := by
      rw [Option.eq_none_iff_forall_ne_some]
      intro f hf
      have hmem := Std.ExtTreeMap.mem_toList_iff_getElem?_eq_some.mpr hf
      rw [hclosed] at hmem
      cases hmem
    simp [Vfs.writer, hnone]
  have hnamed : Machine.Along (Mounted.step keeping) Mounted.Named (.new [] (bucketOf oneFile))
      secondFile := by
    refine ⟨?_, fun _ _ => ⟨(by simp [Mounted.Named, Op.names]), fun _ _ =>
      ⟨(by simp [Mounted.Named, Op.names]), fun _ _ => trivial⟩⟩⟩
    intro name hname
    obtain rfl := List.mem_singleton.mp hname
    decide
  refine ⟨m, hm, hino, (cached_lookup_agrees_iff keeping [] (Or.inl rfl) (bucketOf oneFile) secondFile
    m hm hnamed _ hobjs hwriters rootInode _ hroot rfl "y".toList (by decide) (by decide)).mpr
      (Or.inr (Or.inr (Or.inr (Or.inl ?_))))⟩
  rintro ⟨key, hkey, htakes⟩
  obtain ⟨o, ho, rfl⟩ := (hobjs.mem key).mpr hkey
  have hbelow := (takes_literal (by decide) _).mp htakes
  rcases List.mem_pair.mp ho with rfl | rfl
  · exact absurd hbelow (by decide)
  · exact absurd hbelow (by decide)

open CachedLookup in
/-- The common prefix comes first in the listing, so the name is a directory as long as
that is fresh, and a file after that. -/
theorem listing_hides_file :
    (Vfs.readdir keeping (io fileAndDir "" 0) rootInode (Vfs.new [] (bucketOf fileAndDir))).1 =
        .ok [⟨2, "x".toList, .dir⟩] ∧
      afterListing.found keeping (io fileAndDir "x/" 0) rootInode "x".toList = some (2, .dir, 0) ∧
      afterListing.found keeping (io fileAndDir "x/" 5) rootInode "x".toList = some (3, .file, 1) ∧
      ¬ (Vfs.new [] (bucketOf fileAndDir)).LookupsAgree keeping rootInode ⟨[], .dir, rootInode⟩ "x".toList := by
  have hread : (Vfs.readdir keeping (io fileAndDir "" 0) rootInode (Vfs.new [] (bucketOf fileAndDir))).1 =
      .ok [⟨2, "x".toList, .dir⟩] := by
    decide +kernel
  have hfresh : afterListing.found keeping (io fileAndDir "x/" 0) rootInode "x".toList = some (2, .dir, 0) := by
    decide +kernel
  have hlater : afterListing.found keeping (io fileAndDir "x/" 5) rootInode "x".toList = some (3, .file, 1) := by
    decide +kernel
  refine ⟨hread, hfresh, hlater, fun hagree => ?_⟩
  have hobjs : Describes (objectsOf fileAndDir) (bucketOf fileAndDir) := describes_objectsOf (by decide)
  have henc : KeepsNames urlEncode (objectsOf fileAndDir) := keepsNames_urlEncode (by decide)
  have hsame := hagree (io fileAndDir "" 0) _ afterListing rfl (honestList_onePage hobjs henc rfl)
    (Prod.ext hread rfl) (io fileAndDir "x/" 0) (io fileAndDir "x/" 5)
    (faultless_answering hobjs henc _ _) (faultless_answering hobjs henc _ _) (by decide +kernel)
    (by decide +kernel)
  rw [hfresh, hlater] at hsame
  cases hsame

end Rs5cmd
