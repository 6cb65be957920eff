import Rs5cmd.Mount.Probe
import Rs5cmd.Mount.TableSpec

/-!
# What a mount makes of a listing

`readdir` goes through a listing object by object: each becomes an entry and its
attributes, unless its name was seen before, and its key gets an inode. The inode
table only grows with that. An honest listing of a literal directory has an entry
for each name that something in the bucket stands for, and of two such things the
one that the server lists first.
-/

namespace Rs5cmd

open Cmd

/-! ## Tables that grow -/

namespace InodeTable

/-- The table has all that it had, and new inodes only for keys that are allowed. -/
structure Grows (t t' : InodeTable) (allowed : Str → NodeKind → Prop) : Prop where
  retains : ∀ key i, t.lookupKey key = some i → t'.lookupKey key = some i
  nodes : ∀ i n, t.get i = some n → t'.get i = some n
  introduced : ∀ key i, t'.lookupKey key = some i →
    t.lookupKey key = some i ∨ t.next ≤ i ∧ ∃ n, t'.get i = some n ∧ allowed key n.kind

variable {t t' : InodeTable} {allowed allowed' : Str → NodeKind → Prop} {key : Str} {kind : NodeKind}
  {parent i : Nat}

theorem Grows.refl (t : InodeTable) (allowed : Str → NodeKind → Prop) : t.Grows t allowed :=
  ⟨fun _ _ h => h, fun _ _ h => h, fun _ _ h => Or.inl h⟩

theorem Grows.mono (h : t.Grows t' allowed) (hsub : ∀ key kind, allowed key kind → allowed' key kind) :
    t.Grows t' allowed' where
  retains := h.retains
  nodes := h.nodes
  introduced key i hi := by
    rcases h.introduced key i hi with hold | ⟨hnext, n, hn, hok⟩
    · exact Or.inl hold
    · exact Or.inr ⟨hnext, n, hn, hsub key n.kind hok⟩

theorem Grows.intern (h : t.Grows t' allowed) (hwf : t'.Wf) (hnext : t.next ≤ t'.next)
    (hok : allowed key kind) (parent : Nat) : t.Grows (t'.intern key kind parent).2 allowed := by
  rcases intern_cases t' key kind parent with ⟨i, -, heq⟩ | ⟨hnone, heq⟩
  · rw [heq]
    exact h
  · -- one more inode, under a number that was not used
    have hnodes : ∀ i n, t'.get i = some n → (t'.intern key kind parent).2.get i = some n := by
      intro i n hn
      rw [get_intern_of_lt t' key kind parent (hwf.lt_next hn)]
      exact hn
    rw [heq] at hnodes ⊢
    refine ⟨fun k i hk => ?_, fun i n hn => hnodes i n (h.nodes i n hn), fun k i hk => ?_⟩
    · show (t'.byKey.insert key t'.next)[k]? = some i
      rw [Maps.getElem?_insert_of_ne, ← h.retains k i hk]
      · rfl
      · rintro rfl
        rw [h.retains key i hk] at hnone
        cases hnone
    · simp only [lookupKey, Maps.getElem?_insert_eq] at hk
      split at hk
      · rename_i hkey
        subst hkey
        obtain rfl := Option.some.inj hk
        exact Or.inr ⟨hnext, ⟨key, kind, parent⟩, Std.ExtTreeMap.getElem?_insert_self, hok⟩
      · rcases h.introduced k i hk with hold | ⟨hlt, n, hn, hok⟩
        · exact Or.inl hold
        · exact Or.inr ⟨hlt, n, hnodes i n hn, hok⟩

/-- An interned key is known. -/
theorem lookupKey_intern (t : InodeTable) (key : Str) (kind : NodeKind) (parent : Nat) :
    (t.intern key kind parent).2.lookupKey key = some (t.intern key kind parent).1 := by
  rcases intern_cases t key kind parent with ⟨i, hi, heq⟩ | ⟨-, heq⟩
  · rw [heq]
    exact hi
  · rw [heq]
    exact Std.ExtTreeMap.getElem?_insert_self

theorem intern_of_known (h : t.lookupKey key = some i) (kind : NodeKind) (parent : Nat) :
    t.intern key kind parent = (i, t) := by
  rcases intern_cases t key kind parent with ⟨j, hj, heq⟩ | ⟨hnone, -⟩
  · rw [heq, Option.some.inj (hj.symm.trans h)]
  · rw [hnone] at h
    cases h

/-- Two keys with one inode are the same key. -/
theorem Wf.key_unique (h : t.Wf) {key' : Str} (hi : t.lookupKey key = some i)
    (hi' : t.lookupKey key' = some i) : key = key' := by
  obtain ⟨n, hn, rfl⟩ := h.byKey key i hi
  obtain ⟨m, hm, rfl⟩ := h.byKey key' i hi'
  rw [Option.some.inj (hn.symm.trans hm)]

end InodeTable

/-! ## Entries -/

/-- The name and the kind of an object in the directory with this key; the
directory's own marker has none. -/
def Object.child (key : Str) (obj : Object) : Option (Str × NodeKind) :=
  obj.url.bind fun u =>
    let rel := (Str.stripPrefix key u.path).getD u.path
    match obj.typ with
    | .dir => let name := Str.trimEndMatches '/' rel
      if name = [] then none else some (name, .dir)
    | .file => if rel = [] then none else some (rel, .file)
    | _ => none

/-- The attributes of a listed child. -/
def VfsConfig.childAttr (cfg : VfsConfig) (ino : Nat) (kind : NodeKind) (obj : Object) : Attr :=
  match kind with
  | .dir => cfg.dirAttr ino
  | .file => cfg.fileAttr ino obj

theorem VfsConfig.childAttr_ino (cfg : VfsConfig) (ino : Nat) (kind : NodeKind) (obj : Object) :
    (cfg.childAttr ino kind obj).ino = ino := by
  cases kind with
  | dir => rfl
  | file => rfl

namespace Vfs

/-- One more entry. -/
def Listing.add (acc : Listing) (ino : Nat) (name : Str) (kind : NodeKind) (a : Attr) : Listing :=
  ⟨acc.entries ++ [⟨ino, name, kind⟩], acc.attrs ++ [a], name :: acc.seen⟩

section Step

variable {cfg : VfsConfig} {parent : Nat} {p : Node} {acc : Listing} {obj : Object} {s : Vfs}
  {name : Str} {kind : NodeKind}

/-- What has no name or one that was seen is left out. -/
theorem readdirStep_skip (herr : obj.err = none)
    (h : ∀ x, obj.child p.key = some x → x.1 ∈ acc.seen) :
    readdirStep cfg parent p acc obj s = (.ok (some acc), s) := by
  unfold readdirStep
  simp only [herr]
  cases hurl : obj.url with
  | none => rfl
  | some u =>
    dsimp only
    split
    · rfl
    · rename_i hrel
      simp only [Object.child, hurl, Option.bind_some] at h
      cases htyp : obj.typ with
      | dir =>
        simp only [htyp] at h
        dsimp only
        rw [if_pos]
        · rfl
        · by_cases hname : Str.trimEndMatches '/' ((Str.stripPrefix p.key u.path).getD u.path) = []
          · exact Or.inl hname
          · exact Or.inr (h _ (if_neg hname))
      | file =>
        simp only [htyp] at h
        dsimp only
        rw [if_pos (h _ (if_neg hrel))]
        rfl
      | symlink => rfl
      | unknown => rfl

theorem readdirStep_add (herr : obj.err = none) (h : obj.child p.key = some (name, kind))
    (hnew : name ∉ acc.seen) :
    readdirStep cfg parent p acc obj s =
      (.ok (some (acc.add (s.inodes.intern (p.child name kind) kind parent).1 name kind
          (cfg.childAttr (s.inodes.intern (p.child name kind) kind parent).1 kind obj))),
        { s with inodes := (s.inodes.intern (p.child name kind) kind parent).2 }) := by
  unfold readdirStep
  simp only [herr]
  obtain ⟨u, hurl, h⟩ := Option.bind_eq_some_iff.mp h
  simp only [hurl]
  cases htyp : obj.typ with
  | dir =>
    simp only [htyp] at h
    by_cases hname : Str.trimEndMatches '/' ((Str.stripPrefix p.key u.path).getD u.path) = []
    · rw [if_pos hname] at h
      cases h
    · rw [if_neg hname] at h
      obtain ⟨rfl, rfl⟩ := Prod.mk.inj (Option.some.inj h)
      have hrel : ¬ (Str.stripPrefix p.key u.path).getD u.path = [] := by
        intro hnil
        rw [hnil] at hname
        exact hname rfl
      rw [if_neg hrel]
      dsimp only
      rw [if_neg (not_or.mpr ⟨hname, hnew⟩)]
      rfl
  | file =>
    simp only [htyp] at h
    by_cases hrel : (Str.stripPrefix p.key u.path).getD u.path = []
    · rw [if_pos hrel] at h
      cases h
    · rw [if_neg hrel] at h
      obtain ⟨rfl, rfl⟩ := Prod.mk.inj (Option.some.inj h)
      rw [if_neg hrel]
      dsimp only
      rw [if_neg hnew]
      rfl
  | symlink =>
    simp only [htyp] at h
    cases h
  | unknown =>
    simp only [htyp] at h
    cases h

end Step

end Vfs

/-! ## The loop -/

/-- How far a listing of `p` has got from the table `t₀`: the objects have been taken
into the entries, the attributes and the table. -/
structure Gathered (cfg : VfsConfig) (t₀ : InodeTable) (p : Node) (objs : List Object)
    (acc : Vfs.Listing) (t : InodeTable) : Prop where
  wf : t.Wf
  next : t₀.next ≤ t.next
  grows : t₀.Grows t fun key kind => ∃ name, key = p.child name kind ∧
    ∃ obj ∈ objs, obj.child p.key = some (name, kind)
  seen : ∀ x, x ∈ acc.seen ↔ x ∈ acc.entries.map DirEntry.name
  nodup : (acc.entries.map DirEntry.name).Nodup
  known : ∀ e ∈ acc.entries, t.lookupKey (p.child e.name e.kind) = some e.ino
  entries : ∀ e ∈ acc.entries, ∃ obj ∈ objs, obj.child p.key = some (e.name, e.kind) ∧
    cfg.childAttr e.ino e.kind obj ∈ acc.attrs
  attrs : ∀ a ∈ acc.attrs, ∃ e ∈ acc.entries, ∃ obj ∈ objs,
    obj.child p.key = some (e.name, e.kind) ∧ a = cfg.childAttr e.ino e.kind obj
  all : ∀ obj ∈ objs, ∀ x, obj.child p.key = some x → x.1 ∈ acc.entries.map DirEntry.name

section Gathered

variable {cfg : VfsConfig} {t₀ t : InodeTable} {parent : Nat} {p : Node} {objs : List Object}
  {acc : Vfs.Listing} {obj : Object} {name : Str} {kind : NodeKind}

theorem gathered_empty (cfg : VfsConfig) (hwf : t.Wf) (p : Node) : Gathered cfg t p [] {} t where
  wf := hwf
  next := Nat.le_refl _
  grows := InodeTable.Grows.refl t _
  seen x := by simp
  nodup := List.nodup_nil
  known e he := by simp at he
  entries e he := by simp at he
  attrs a ha := by simp at ha
  all obj hobj := by simp at hobj

theorem Gathered.skip (h : Gathered cfg t₀ p objs acc t)
    (hskip : ∀ x, obj.child p.key = some x → x.1 ∈ acc.seen) :
    Gathered cfg t₀ p (objs ++ [obj]) acc t where
  wf := h.wf
  next := h.next
  grows := by
    refine h.grows.mono fun key kind hok => ?_
    obtain ⟨name, hkey, o, ho, hchild⟩ := hok
    exact ⟨name, hkey, o, List.mem_append_left _ ho, hchild⟩
  seen := h.seen
  nodup := h.nodup
  known := h.known
  entries e he := by
    obtain ⟨o, ho, hchild⟩ := h.entries e he
    exact ⟨o, List.mem_append_left _ ho, hchild⟩
  attrs a ha := by
    obtain ⟨e, he, o, ho, hchild⟩ := h.attrs a ha
    exact ⟨e, he, o, List.mem_append_left _ ho, hchild⟩
  all o ho x hx := by
    rcases List.mem_append.mp ho with ho | ho
    · exact h.all o ho x hx
    · rw [List.mem_singleton.mp ho] at hx
      exact (h.seen x.1).mp (hskip x hx)

theorem Gathered.add (h : Gathered cfg t₀ p objs acc t) (hchild : obj.child p.key = some (name, kind))
    (hnew : name ∉ acc.seen) (parent : Nat) :
    Gathered cfg t₀ p (objs ++ [obj])
      (acc.add (t.intern (p.child name kind) kind parent).1 name kind
        (cfg.childAttr (t.intern (p.child name kind) kind parent).1 kind obj))
      (t.intern (p.child name kind) kind parent).2 := by
  have hself : obj ∈ objs ++ [obj] := List.mem_append_right _ List.mem_cons_self
  have hlater : ∀ {o}, o ∈ objs → o ∈ objs ++ [obj] := fun ho => List.mem_append_left _ ho
  refine ⟨h.wf.intern _ _ _, h.next.trans (t.next_le_intern _ _ _), ?_, ?_, ?_, ?_, ?_, ?_, ?_⟩
  · refine InodeTable.Grows.intern (h.grows.mono fun key kind hok => ?_) h.wf h.next ?_ parent
    · obtain ⟨x, hkey, o, ho, hx⟩ := hok
      exact ⟨x, hkey, o, hlater ho, hx⟩
    · exact ⟨name, rfl, obj, hself, hchild⟩
  · intro x
    show x ∈ name :: acc.seen ↔ x ∈ (acc.entries ++ [_]).map DirEntry.name
    rw [List.mem_cons, h.seen x, List.map_append, List.mem_append, List.map_singleton,
      List.mem_singleton, or_comm]
  · show ((acc.entries ++ [_]).map DirEntry.name).Nodup
    rw [List.map_append, List.map_singleton, List.nodup_append_comm, List.singleton_append,
      List.nodup_cons]
    exact ⟨fun hin => hnew ((h.seen name).mpr hin), h.nodup⟩
  · intro e he
    rcases List.mem_append.mp he with he | he
    · -- what is in the table stays there
      have hgrows : t.Grows (t.intern (p.child name kind) kind parent).2 fun _ _ => True :=
        (InodeTable.Grows.refl t _).intern h.wf (Nat.le_refl _) trivial parent
      exact hgrows.retains _ _ (h.known e he)
    · rw [List.mem_singleton.mp he]
      exact t.lookupKey_intern _ _ _
  · intro e he
    rcases List.mem_append.mp he with he | he
    · obtain ⟨o, ho, hx, ha⟩ := h.entries e he
      exact ⟨o, hlater ho, hx, List.mem_append_left _ ha⟩
    · rw [List.mem_singleton.mp he]
      exact ⟨obj, hself, hchild, List.mem_append_right _ List.mem_cons_self⟩
  · intro a ha
    rcases List.mem_append.mp ha with ha | ha
    · obtain ⟨e, he, o, ho, hx⟩ := h.attrs a ha
      exact ⟨e, List.mem_append_left _ he, o, hlater ho, hx⟩
    · rw [List.mem_singleton.mp ha]
      exact ⟨_, List.mem_append_right _ List.mem_cons_self, obj, hself, hchild, rfl⟩
  · intro o ho x hx
    show x.1 ∈ (acc.entries ++ [_]).map DirEntry.name
    rw [List.map_append, List.mem_append]
    rcases List.mem_append.mp ho with ho | ho
    · exact Or.inl (h.all o ho x hx)
    · rw [List.mem_singleton.mp ho, hchild] at hx
      obtain rfl := Option.some.inj hx
      exact Or.inr (List.mem_singleton.mpr rfl)

/-- Objects without errors are all gathered. -/
theorem readdirLoop_gathered (parent : Nat) {s : Vfs} {done : List Object}
    (herr : ∀ obj ∈ objs, obj.err = none) (h : Gathered cfg t₀ p done acc s.inodes) :
    ∃ acc' t, Gathered cfg t₀ p (done ++ objs) acc' t ∧ acc.entries <+: acc'.entries ∧
      ∀ rest, Vfs.readdirLoop cfg parent p (objs ++ rest) acc s =
        Vfs.readdirLoop cfg parent p rest acc' { s with inodes := t } := by
  induction objs generalizing s done acc with
  | nil =>
    rw [List.append_nil]
    exact ⟨acc, s.inodes, h, List.prefix_rfl, fun rest => rfl⟩
  | cons obj objs ih =>
    have hnone := herr obj List.mem_cons_self
    have hrest : ∀ o ∈ objs, o.err = none := fun o ho => herr o (List.mem_cons_of_mem obj ho)
    by_cases hskip : ∀ x, obj.child p.key = some x → x.1 ∈ acc.seen
    · obtain ⟨acc', t, hg, hpre, hrun⟩ := ih hrest (h.skip hskip)
      rw [List.append_assoc, List.singleton_append] at hg
      refine ⟨acc', t, hg, hpre, fun rest => ?_⟩
      rw [List.cons_append, Vfs.readdirLoop, bind_ok (Vfs.readdirStep_skip hnone hskip)]
      exact hrun rest
    · push Not at hskip
      obtain ⟨⟨name, kind⟩, hchild, hnew⟩ := hskip
      have hstep := @Vfs.readdirStep_add cfg parent p acc obj s name kind hnone hchild hnew
      obtain ⟨acc', t, hg, hpre, hrun⟩ := ih
        (s := { s with inodes := (s.inodes.intern (p.child name kind) kind parent).2 }) hrest
        (h.add hchild hnew parent)
      rw [List.append_assoc, List.singleton_append] at hg
      refine ⟨acc', t, hg, (List.prefix_append _ _).trans hpre, fun rest => ?_⟩
      rw [List.cons_append, Vfs.readdirLoop, bind_ok hstep]
      exact hrun rest

theorem readdirLoop_listEnd (cfg : VfsConfig) (parent : Nat) (p : Node) (u : Url) (any : Bool)
    (acc : Vfs.Listing) (s : Vfs) :
    Vfs.readdirLoop cfg parent p (listEnd u any) acc s = (.ok acc, s) := by
  unfold listEnd
  split
  · rfl
  · rfl

end Gathered

/-! ## The whole of `readdir` -/

/-- What a listing leaves behind. -/
def Vfs.listed (s : Vfs) (io : Io) (parent : Nat) (acc : Vfs.Listing) (t : InodeTable) : Vfs :=
  { s with
    inodes := t
    attrCache := acc.attrs.foldl (fun c a => c.insert a.ino (a, io.instant)) s.attrCache
    dirCache := s.dirCache.insert parent (acc.entries, io.instant) }

section Readdir

variable {cfg : VfsConfig} {io : Io} {s : Vfs} {parent : Nat} {p : Node} {acc : Vfs.Listing}
  {t : InodeTable}

theorem forEach_storeAttr_run (attrs : List Attr) (s : Vfs) :
    forEach (Vfs.storeAttr io) attrs s = (.ok (), { s with
      attrCache := attrs.foldl (fun c a => c.insert a.ino (a, io.instant)) s.attrCache }) := by
  induction attrs generalizing s with
  | nil => rfl
  | cons a attrs ih => exact ih _

/-- The attributes that are stored for an inode are the last ones that name it. -/
theorem attrCache_foldl (cache : Std.ExtTreeMap Nat (Attr × Nat) compare) (time : Nat)
    {attrs : List Attr} {a : Attr} (ha : a ∈ attrs) :
    ∃ b ∈ attrs, b.ino = a.ino ∧
      (attrs.foldl (fun c a => c.insert a.ino (a, time)) cache)[a.ino]? = some (b, time) := by
  induction attrs using List.reverseRecOn with
  | nil => simp at ha
  | append_singleton attrs last ih =>
    rw [List.foldl_append, List.foldl_cons, List.foldl_nil, Maps.getElem?_insert_eq]
    by_cases hlast : last.ino = a.ino
    · rw [if_pos hlast]
      exact ⟨last, List.mem_append_right _ List.mem_cons_self, hlast, rfl⟩
    · rw [if_neg hlast]
      have hbefore : a ∈ attrs := by
        rcases List.mem_append.mp ha with ha | ha
        · exact ha
        · exact absurd (congrArg Attr.ino (List.mem_singleton.mp ha)).symm hlast
      obtain ⟨b, hb, hino, hget⟩ := ih hbefore
      exact ⟨b, List.mem_append_left _ hb, hino, hget⟩

/-- Only files that are open for writing are added to a listing. -/
theorem dirtyChildren_noWriters (h : ∀ fh, s.writer fh = none) (io : Io) (dir : Nat) :
    s.dirtyChildren io dir = [] := by
  unfold Vfs.dirtyChildren
  split
  · rfl
  · rw [List.filterMap_eq_nil_iff]
    intro e he
    have hh : s.handles[e.1]? = some e.2 := Maps.mem_inOrder_toList.mp he
    cases hkind : e.2.kind with
    | read src size => rfl
    | write w =>
      have hhandle : s.handles[e.1]? = some ⟨e.2.ino, .write w⟩ := by rw [hh, ← hkind]
      have hwriter := writer_of_handle hhandle
      rw [h e.1] at hwriter
      cases hwriter

/-- A listing without errors, with no file open for writing, gathers its objects; the
first of them come first. -/
theorem readdir_gathered (hp : s.inodes.get parent = some p) (hdir : p.kind = .dir)
    (hwf : s.inodes.Wf) (hnone : s.cachedDir cfg io parent = none)
    (hwriters : ∀ fh, s.writer fh = none) {first rest : List Object} {u : Url} {any : Bool}
    (hlist : io.list = first ++ rest ++ listEnd u any)
    (herr : ∀ obj ∈ first ++ rest, obj.err = none) :
    ∃ acc₁ t₁ acc t, Gathered cfg s.inodes p first acc₁ t₁ ∧ acc₁.entries <+: acc.entries ∧
      Gathered cfg s.inodes p (first ++ rest) acc t ∧
      Vfs.readdir cfg io parent s = (.ok acc.entries, s.listed io parent acc t) := by
  obtain ⟨acc₁, t₁, hfirst, -, hrun₁⟩ := readdirLoop_gathered parent
    (fun o ho => herr o (List.mem_append_left _ ho)) (gathered_empty cfg hwf p)
  rw [List.nil_append] at hfirst
  obtain ⟨acc, t, hall, hpre, hrun⟩ := readdirLoop_gathered parent
    (s := { s with inodes := t₁ }) (fun o ho => herr o (List.mem_append_right _ ho)) hfirst
  refine ⟨acc₁, t₁, acc, t, hfirst, hpre, hall, ?_⟩
  have hloop : Vfs.readdirLoop cfg parent p io.list {} s = (.ok acc, { s with inodes := t }) := by
    rw [hlist, List.append_assoc, hrun₁, hrun]
    exact readdirLoop_listEnd cfg parent p u any acc _
  have hchildren : Vfs.dirtyChildren { s with inodes := t } io parent = [] :=
    dirtyChildren_noWriters (s := { s with inodes := t }) hwriters io parent
  have hisDir : p.kind.isDir = true := by
    rw [hdir]
    rfl
  rw [show Vfs.readdir cfg io parent s = _ from bind_ok (node_ok hp)]
  simp only [hisDir, Bool.not_true, Bool.false_eq_true, if_false, get_bind, hnone, cfg.objUrl_eq,
    ofExcept_ok_bind]
  rw [bind_ok hloop, get_bind, hchildren, bind_ok (forEach_storeAttr_run acc.attrs _)]
  rfl

/-- What is stored for an entry of a listing: the attributes of a listed object of its
inode. -/
theorem Gathered.stored {objs : List Object} (h : Gathered cfg s.inodes p objs acc t) {e : DirEntry}
    (he : e ∈ acc.entries) (io : Io) (parent : Nat) :
    ∃ e' ∈ acc.entries, e'.ino = e.ino ∧ ∃ obj ∈ objs, obj.child p.key = some (e'.name, e'.kind) ∧
      (s.listed io parent acc t).attrCache[e.ino]? =
        some (cfg.childAttr e.ino e'.kind obj, io.instant) := by
  obtain ⟨obj, -, -, ha⟩ := h.entries e he
  have hino := cfg.childAttr_ino e.ino e.kind obj
  obtain ⟨b, hb, hbino, hget⟩ := attrCache_foldl s.attrCache io.instant ha
  obtain ⟨e', he', obj', hobj', hchild, rfl⟩ := h.attrs b hb
  rw [cfg.childAttr_ino, hino] at hbino
  rw [hino] at hget
  refine ⟨e', he', hbino, obj', hobj', hchild, ?_⟩
  rw [hbino] at hget
  exact hget

end Readdir

/-! ## Honest listings -/

section Honest

variable {cfg : VfsConfig} {bucket : Str → Option Stored} {dirKey : Str} {found list : List Object}

/-- The two kinds of item of a literal directory, and the child that each is. -/
theorem child_item (hglob : hasGlobCharacter dirKey = false) {o : StoredObject} {it : ListItem}
    (h : (listV2Request (cfg.url dirKey)).itemOf o = some it) :
    (∃ x, it = .object o ∧ o.key = dirKey ++ x ∧ '/' ∉ x ∧
        (it.toObject (cfg.url dirKey)).child dirKey = if x = [] then none else some (x, .file)) ∨
      ∃ x b, it = .commonPrefix (dirKey ++ (x ++ ['/'])) ∧ o.key = dirKey ++ (x ++ '/' :: b) ∧
        '/' ∉ x ∧
        (it.toObject (cfg.url dirKey)).child dirKey = if x = [] then none else some (x, .dir) := by
  have hpart := Url.globPart_of_literal hglob
  have hdelim : (listV2Request (cfg.url dirKey)).delimiter = some ['/'] := by
    show nonEmpty (if Url.globPart dirKey = [] then ['/'] else []) = _
    rw [if_pos hpart]
    rfl
  have hstrip : ∀ x : Str, Str.stripPrefix dirKey (dirKey ++ x) = some x :=
    fun x => Str.stripPrefix_eq_some.mpr rfl
  rcases (isDirUrl_url cfg dirKey).itemOf_cases h with rfl | ⟨x, b, -, hx, hkey, rfl⟩
  · refine Or.inl ?_
    rcases Rs5cmd.itemOf_cases h with ⟨-, x, hkey, hno⟩ | ⟨a, d, -, hcontra⟩
    · have hkey' : o.key = dirKey ++ x := by
        rw [hkey]
        exact congrArg (· ++ x) (Url.literalPart_of_globPart hpart)
      have hx : '/' ∉ x := fun hin => hno ['/'] hdelim ((List.singleton_infix_iff _ _).mpr hin)
      refine ⟨x, rfl, hkey', hx, ?_⟩
      simp only [Object.child, ListItem.toObject, Option.bind_some, hkey', hstrip, Option.getD_some]
    · cases hcontra
  · refine Or.inr ⟨x, b, rfl, hkey, hx, ?_⟩
    simp only [Object.child, ListItem.toObject, Option.bind_some, hstrip, Option.getD_some,
      Str.trimEndMatches_concat hx]

/-- A file that a literal directory shows is an object of it, with its size. -/
theorem Sent.file_child (h : Sent bucket (cfg.url dirKey) found list)
    (hglob : hasGlobCharacter dirKey = false) {obj : Object} (hobj : obj ∈ found) {name : Str}
    (hchild : obj.child dirKey = some (name, .file)) :
    '/' ∉ name ∧ ∃ st, bucket (dirKey ++ name) = some st ∧ obj.size = st.bytes.length := by
  obtain ⟨objs, hobjs, hmem⟩ := h.mem_iff (isDirUrl_url cfg dirKey) cfg
  obtain ⟨o, ho, -, it, hit, rfl⟩ := (hmem obj).mp hobj
  rcases child_item hglob hit with ⟨x, rfl, hkey, hx, heq⟩ | ⟨x, b, -, -, -, heq⟩
  · rw [heq] at hchild
    split at hchild
    · cases hchild
    · obtain ⟨rfl, -⟩ := Prod.mk.inj (Option.some.inj hchild)
      obtain ⟨st, hst⟩ := Option.ne_none_iff_exists'.mp ((hobjs.mem _).mp ⟨o, ho, hkey⟩)
      exact ⟨hx, st, hst, hobjs.size o ho st (hkey ▸ hst)⟩
  · rw [heq] at hchild
    split at hchild
    · cases hchild
    · cases hchild

/-- Below a directory that a literal directory shows there is an object. -/
theorem Sent.dir_child (h : Sent bucket (cfg.url dirKey) found list)
    (hglob : hasGlobCharacter dirKey = false) {obj : Object} (hobj : obj ∈ found) {name : Str}
    (hchild : obj.child dirKey = some (name, .dir)) :
    '/' ∉ name ∧ ∃ key, bucket key ≠ none ∧ dirKey ++ name ++ ['/'] <+: key := by
  obtain ⟨objs, hobjs, hmem⟩ := h.mem_iff (isDirUrl_url cfg dirKey) cfg
  obtain ⟨o, ho, -, it, hit, rfl⟩ := (hmem obj).mp hobj
  rcases child_item hglob hit with ⟨x, -, -, -, heq⟩ | ⟨x, b, -, hkey, hx, heq⟩
  · rw [heq] at hchild
    split at hchild
    · cases hchild
    · cases hchild
  · rw [heq] at hchild
    split at hchild
    · cases hchild
    · obtain ⟨rfl, -⟩ := Prod.mk.inj (Option.some.inj hchild)
      exact ⟨hx, o.key, (hobjs.mem _).mp ⟨o, ho, rfl⟩, b, by rw [hkey]; simp⟩

/-- A directory with an object below it is shown by a literal directory. -/
theorem Sent.exists_dir (h : Sent bucket (cfg.url dirKey) found list)
    (hglob : hasGlobCharacter dirKey = false) {name key : Str} (hne : name ≠ [])
    (hslash : '/' ∉ name) (hbucket : bucket key ≠ none) (hkey : dirKey ++ name ++ ['/'] <+: key) :
    ∃ obj ∈ found, obj.child dirKey = some (name, .dir) := by
  obtain ⟨objs, hobjs, hmem⟩ := h.mem_iff (isDirUrl_url cfg dirKey) cfg
  obtain ⟨r, rfl⟩ := hkey
  obtain ⟨o, ho, hkey⟩ := (hobjs.mem _).mpr hbucket
  have hkey : o.key = dirKey ++ (name ++ '/' :: r) := by
    rw [hkey]
    simp
  have htakes : cfg.Takes dirKey o.key := (takes_literal hglob _).mpr ⟨_, hkey.symm⟩
  obtain ⟨it, hit⟩ := (isDirUrl_url cfg dirKey).exists_item htakes
  refine ⟨_, (hmem _).mpr ⟨o, ho, htakes, it, hit, rfl⟩, ?_⟩
  rcases child_item hglob hit with ⟨x, -, hkey', hx, -⟩ | ⟨x, b, -, hkey', hx, heq⟩
  · have heq := List.append_cancel_left (hkey'.symm.trans hkey)
    exact absurd (heq ▸ List.mem_append_right name List.mem_cons_self) hx
  · -- both names are what comes before the first slash
    have hsame := List.append_cancel_left (hkey'.symm.trans hkey)
    have hsplit := Str.splitOnce_char_append hx b
    rw [hsame, Str.splitOnce_char_append hslash r] at hsplit
    obtain ⟨rfl, -⟩ := Prod.mk.inj (Option.some.inj hsplit)
    rw [heq, if_neg hne]

/-- A directory with a wildcard in its key shows only names that end with a slash. -/
theorem Sent.glob_child (h : Sent bucket (cfg.url dirKey) found list)
    (hglob : hasGlobCharacter dirKey = true) {d : Str} (hdir : dirKey = d ++ ['/']) {obj : Object}
    (hobj : obj ∈ found) {x : Str × NodeKind} (hchild : obj.child dirKey = some x) :
    Str.endsWith '/' x.1 = true := by
  obtain ⟨objs, hobjs, hmem⟩ := h.mem_iff (isDirUrl_url cfg dirKey) cfg
  obtain ⟨o, ho, htakes, it, hit, rfl⟩ := (hmem obj).mp hobj
  have hend : Str.endsWith '/' o.key = true := by
    have hmatch : matchToks (Url.filterToks dirKey) o.key = true := htakes
    rw [Url.filterToks_glob hglob, hdir, globToks, List.map_append] at hmatch
    exact endsWith_of_matchToks _ hmatch
  rcases (isDirUrl_url cfg dirKey).itemOf_cases hit with rfl | ⟨a, b, hlit, -⟩
  · simp only [Object.child, ListItem.toObject, Option.bind_some] at hchild
    split at hchild
    · cases hchild
    · rename_i hne
      obtain rfl := Option.some.inj hchild
      -- what is left of the key ends as the key does
      cases hstrip : Str.stripPrefix dirKey o.key with
      | none => exact hend
      | some rest =>
        rw [hstrip, Option.getD_some] at hne
        rw [Str.stripPrefix_eq_some.mp hstrip, Str.endsWith_append _ _ hne] at hend
        exact hend
  · rw [hlit] at hglob
    cases hglob

end Honest

end Rs5cmd
