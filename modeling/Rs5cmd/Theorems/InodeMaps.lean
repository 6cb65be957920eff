import Rs5cmd.Mount.TableSpec

/-!
# The two maps of the inode table are inverse

Every operation of a mount keeps the maps from inodes to nodes and from keys to
inodes inverse to each other, with one exception: the rename of a directory onto
keys that are known already. A file rename drops the inode of what it overwrites
first, a directory rename does not.
-/

namespace Rs5cmd

open Cmd Relation

namespace InodeTable

variable {t : InodeTable} {i j : Nat} {n : Node} {key rootKey : Str}

/-- The maps are inverse to each other, all inodes are below the counter and the
root is there. -/
structure Inverse (t : InodeTable) : Prop where
  byKey : ∀ k i, t.lookupKey k = some i → ∃ n, t.get i = some n ∧ n.key = k
  nodes : ∀ i n, t.get i = some n → t.lookupKey n.key = some i
  below : ∀ i n, t.get i = some n → i < t.next
  root : (t.get rootInode).isSome = true

/-- The two maps lead back to each other. -/
structure Paired (t : InodeTable) : Prop where
  byKey : ∀ k i, t.lookupKey k = some i → ∃ n, t.get i = some n ∧ n.key = k
  nodes : ∀ i n, t.get i = some n → t.lookupKey n.key = some i

/-- The invariant behind it: every key starts with the key of the root. -/
structure Rooted (rootKey : Str) (t : InodeTable) : Prop where
  wf : t.Wf
  nodes : ∀ i n, t.get i = some n → t.lookupKey n.key = some i
  under : ∀ i n, t.get i = some n → rootKey <+: n.key
  root : ∃ n, t.get rootInode = some n ∧ n.key = rootKey

theorem Rooted.inverse (h : t.Rooted rootKey) : t.Inverse where
  byKey := h.wf.byKey
  nodes := h.nodes
  below _ _ hn := h.wf.lt_next hn
  root := by
    obtain ⟨n, hn, -⟩ := h.root
    rw [hn]
    rfl

theorem Rooted.paired (h : t.Rooted rootKey) : t.Paired where
  byKey := h.wf.byKey
  nodes := h.nodes

/-- Two inodes with one key are the same. -/
theorem Paired.ino_eq (h : t.Paired) {m : Node} (hi : t.get i = some n)
    (hj : t.get j = some m) (hkey : n.key = m.key) : i = j := by
  have hn := h.nodes i n hi
  rw [hkey, h.nodes j m hj] at hn
  exact (Option.some.inj hn).symm

theorem Rooted.ne_root (h : t.Rooted rootKey) (hn : t.get i = some n)
    (hlen : rootKey.length < n.key.length) : rootInode ≠ i := by
  rintro rfl
  obtain ⟨m, hm, hkey⟩ := h.root
  obtain rfl := Option.some.inj (hm.symm.trans hn)
  rw [hkey] at hlen
  exact Nat.lt_irrefl _ hlen

theorem new_rooted (rootKey : Str) : (new rootKey).Rooted rootKey := by
  have hget : ∀ i n, (new rootKey).get i = some n →
      i = rootInode ∧ n = ⟨rootKey, .dir, rootInode⟩ := by
    intro i n hn
    simp only [get, new, Maps.getElem?_insert_eq] at hn
    split at hn
    · rename_i heq
      exact ⟨heq.symm, (Option.some.inj hn).symm⟩
    · simp at hn
  refine ⟨new_wf rootKey, ?_, ?_, ⟨rootKey, .dir, rootInode⟩, by simp [get, new], rfl⟩
  · intro i n hn
    obtain ⟨rfl, rfl⟩ := hget i n hn
    simp [lookupKey, new]
  · intro i n hn
    obtain ⟨rfl, rfl⟩ := hget i n hn
    exact List.prefix_rfl

/-! ## Single changes -/

theorem Rooted.intern (h : t.Rooted rootKey) (hkey : rootKey <+: key) (kind : NodeKind)
    (parent : Nat) : (t.intern key kind parent).2.Rooted rootKey := by
  have hwf := h.wf.intern key kind parent
  rcases intern_cases t key kind parent with ⟨ino, -, heq⟩ | ⟨hnew, heq⟩
  · rw [heq]
    exact h
  · rw [heq] at hwf ⊢
    obtain ⟨r, hr, hrkey⟩ := h.root
    have hget : ∀ i n, (t.nodes.insert t.next ⟨key, kind, parent⟩)[i]? = some n →
        (i = t.next ∧ n = ⟨key, kind, parent⟩) ∨ t.get i = some n := by
      intro i n hn
      rw [Maps.getElem?_insert_eq] at hn
      split at hn
      · rename_i hi
        exact Or.inl ⟨hi.symm, (Option.some.inj hn).symm⟩
      · exact Or.inr hn
    refine ⟨hwf, ?_, ?_, r, ?_, hrkey⟩
    · intro i n hn
      show (t.byKey.insert key t.next)[n.key]? = some i
      rcases hget i n hn with ⟨rfl, rfl⟩ | hold
      · exact Std.ExtTreeMap.getElem?_insert_self
      · -- a key that is known is not the new one
        have hne : key ≠ n.key := by
          rintro rfl
          rw [h.nodes i n hold] at hnew
          cases hnew
        rw [Maps.getElem?_insert_of_ne hne]
        exact h.nodes i n hold
    · intro i n hn
      rcases hget i n hn with ⟨-, rfl⟩ | hold
      · exact hkey
      · exact h.under i n hold
    · show (t.nodes.insert t.next _)[rootInode]? = some r
      rw [Maps.getElem?_insert_of_ne (Nat.ne_of_gt (h.wf.lt_next hr))]
      exact hr

theorem Rooted.forget (h : t.Rooted rootKey) (hi : rootInode ≠ i) : (t.forget i).Rooted rootKey := by
  obtain ⟨r, hr, hrkey⟩ := h.root
  have hget : ∀ j m, (t.forget i).get j = some m → i ≠ j ∧ t.get j = some m := by
    intro j m hm
    rw [get_forget] at hm
    split at hm
    · cases hm
    · rename_i hij
      exact ⟨hij, hm⟩
  refine ⟨h.wf.forget i, ?_, fun j m hm => h.under j m (hget j m hm).2, r, ?_, hrkey⟩
  · intro j m hm
    obtain ⟨hij, hm⟩ := hget j m hm
    cases hn : t.nodes[i]? with
    | none =>
      simp only [InodeTable.forget, hn]
      exact h.nodes j m hm
    | some n =>
      have hne : n.key ≠ m.key := fun heq => hij (h.paired.ino_eq hn hm heq)
      simp only [InodeTable.forget, hn, lookupKey]
      rw [Maps.getElem?_erase_of_ne hne]
      exact h.nodes j m hm
  · rw [get_forget, if_neg (Ne.symm hi)]
    exact hr

/-- The lookups after a key has changed. -/
theorem lookupKey_rekey (hn : t.get i = some n) (newKey k : Str) :
    (t.rekey i newKey).lookupKey k =
      if newKey = k then some i else if n.key = k then none else t.lookupKey k := by
  have hn' : t.nodes[i]? = some n := hn
  simp only [InodeTable.rekey, hn', lookupKey, Maps.getElem?_insert_eq, Maps.getElem?_erase_eq]

/-- A key that is not known, or its own, can be given to an inode. -/
theorem Paired.rekey (h : t.Paired) (hn : t.get i = some n) {newKey : Str}
    (hfree : t.lookupKey newKey = none ∨ newKey = n.key) : (t.rekey i newKey).Paired := by
  refine ⟨?_, ?_⟩
  · intro k j hk
    rw [lookupKey_rekey hn] at hk
    split at hk
    · rename_i hkey
      obtain rfl := Option.some.inj hk
      refine ⟨{ n with key := newKey }, ?_, hkey⟩
      rw [get_rekey, if_pos rfl, hn]
      rfl
    · split at hk
      · cases hk
      · rename_i hne
        obtain ⟨m, hm, hmk⟩ := h.byKey k j hk
        have hij : i ≠ j := by
          rintro rfl
          obtain rfl := Option.some.inj (hn.symm.trans hm)
          exact hne hmk
        exact ⟨m, by rw [get_rekey, if_neg hij]; exact hm, hmk⟩
  · intro j m hm
    rw [get_rekey] at hm
    rw [lookupKey_rekey hn]
    by_cases hij : i = j
    · subst hij
      rw [if_pos rfl, hn] at hm
      obtain rfl := Option.some.inj hm
      exact if_pos rfl
    · rw [if_neg hij] at hm
      have hold : n.key ≠ m.key := fun heq => hij (h.ino_eq hn hm heq)
      have hnew : newKey ≠ m.key := by
        rintro rfl
        rcases hfree with hnone | hsame
        · rw [h.nodes j m hm] at hnone
          cases hnone
        · exact hold hsame.symm
      rw [if_neg hnew, if_neg hold]
      exact h.nodes j m hm

theorem Rooted.rekey (h : t.Rooted rootKey) (hn : t.get i = some n) (hi : rootInode ≠ i)
    {newKey : Str} (hfree : t.lookupKey newKey = none ∨ newKey = n.key) (hkey : rootKey <+: newKey) :
    (t.rekey i newKey).Rooted rootKey := by
  obtain ⟨r, hr, hrkey⟩ := h.root
  refine ⟨h.wf.rekey i newKey, (h.paired.rekey hn hfree).nodes, ?_, r, ?_, hrkey⟩
  · intro j m hm
    rw [get_rekey] at hm
    split at hm
    · obtain ⟨m', -, rfl⟩ := Option.map_eq_some_iff.mp hm
      exact hkey
    · exact h.under j m hm
  · rw [get_rekey, if_neg (Ne.symm hi)]
    exact hr

/-! ## Renames -/

/-- Every key that is given out for one under `oldPrefix` is unknown so far. -/
def FreeFor (t : InodeTable) (oldPrefix newPrefix : Str) : Prop :=
  ∀ i n, t.get i = some n → Str.startsWith oldPrefix n.key = true →
    t.lookupKey (newPrefix ++ n.key.drop oldPrefix.length) = none ∨
      newPrefix ++ n.key.drop oldPrefix.length = n.key

instance (oldPrefix newPrefix : Str) : Decidable (t.FreeFor oldPrefix newPrefix) :=
  decidable_of_iff (∀ e ∈ t.nodes.toList, Str.startsWith oldPrefix e.2.key = true →
      t.lookupKey (newPrefix ++ e.2.key.drop oldPrefix.length) = none ∨
        newPrefix ++ e.2.key.drop oldPrefix.length = e.2.key)
    ⟨fun h i n hn => h (i, n) (Std.ExtTreeMap.mem_toList_iff_getElem?_eq_some.mpr hn),
      fun h e he => h e.1 e.2 (Std.ExtTreeMap.mem_toList_iff_getElem?_eq_some.mp he)⟩

/-- The loop over the affected nodes. An entry put in by one round is not what a later
round takes out: the keys given out are unknown, and those taken out are not. -/
theorem Paired.foldl_rekey (f : Str → Str) (l : List (Nat × Node)) (h : t.Paired)
    (hl : ∀ e ∈ l, t.get e.1 = some e.2) (hdistinct : l.Pairwise fun a b => a.1 ≠ b.1)
    (hfree : ∀ e ∈ l, t.lookupKey (f e.2.key) = none ∨ f e.2.key = e.2.key)
    (hinj : ∀ a ∈ l, ∀ b ∈ l, f a.2.key = f b.2.key → a.2.key = b.2.key) :
    (l.foldl (fun t e => t.rekey e.1 (f e.2.key)) t).Paired := by
  induction l generalizing t with
  | nil => exact h
  | cons e l ih =>
    obtain ⟨hne, hdistinct⟩ := List.pairwise_cons.mp hdistinct
    have hmem := List.mem_cons_self (a := e) (l := l)
    have hrest : ∀ {b}, b ∈ l → b ∈ e :: l := fun hb => List.mem_cons_of_mem e hb
    have he := hl e hmem
    rw [List.foldl_cons]
    refine ih (h.rekey he (hfree e hmem)) ?_ hdistinct ?_
      (fun a ha b hb => hinj a (hrest ha) b (hrest hb))
    · intro b hb
      rw [get_rekey, if_neg (hne b hb)]
      exact hl b (hrest hb)
    · intro b hb
      rcases hfree b (hrest hb) with hnone | hsame
      · -- the key that was just given out is another one
        have hother : f e.2.key ≠ f b.2.key := fun heq =>
          hne b hb (h.ino_eq he (hl b (hrest hb)) (hinj e hmem b (hrest hb) heq))
        rw [lookupKey_rekey he, if_neg hother, hnone]
        exact Or.inl (ite_self none)
      · exact Or.inr hsame

theorem Paired.rekeyPrefix (h : t.Paired) (order : List Nat) {oldPrefix newPrefix : Str}
    (hfree : t.FreeFor oldPrefix newPrefix) :
    (t.rekeyPrefix order oldPrefix newPrefix).2.Paired := by
  have hmem : ∀ e ∈ t.affected order oldPrefix,
      t.get e.1 = some e.2 ∧ Str.startsWith oldPrefix e.2.key = true := fun e he => mem_affected.mp he
  refine h.foldl_rekey (fun k => newPrefix ++ k.drop oldPrefix.length) _ (fun e he => (hmem e he).1) ?_
    ?_ ?_
  · exact (Maps.pairwise_inOrder (Maps.pairwise_toList t.nodes)).filter _
  · intro e he
    exact hfree e.1 e.2 (hmem e he).1 (hmem e he).2
  · intro a ha b hb heq
    obtain ⟨x, hx⟩ := of_decide_eq_true (hmem a ha).2
    obtain ⟨y, hy⟩ := of_decide_eq_true (hmem b hb).2
    have hdrop := List.append_cancel_left heq
    rw [← hx, ← hy, List.drop_left, List.drop_left] at hdrop
    rw [← hx, ← hy, hdrop]

theorem Rooted.rekeyPrefix (h : t.Rooted rootKey) (order : List Nat) {oldPrefix newPrefix : Str}
    (hold : rootKey.length < oldPrefix.length) (hnew : rootKey <+: newPrefix)
    (hfree : t.FreeFor oldPrefix newPrefix) :
    (t.rekeyPrefix order oldPrefix newPrefix).2.Rooted rootKey := by
  obtain ⟨r, hr, hrkey⟩ := h.root
  refine ⟨h.wf.rekeyPrefix order oldPrefix newPrefix, (h.paired.rekeyPrefix order hfree).nodes, ?_,
    r, ?_, hrkey⟩
  · intro j m hm
    rw [get_rekeyPrefix] at hm
    obtain ⟨n, hn, rfl⟩ := Option.map_eq_some_iff.mp hm
    split
    · exact hnew.trans (List.prefix_append _ _)
    · exact h.under j n hn
  · -- the key of the root is too short for the old prefix
    have hroot : ¬ Str.startsWith oldPrefix r.key = true := by
      intro hstarts
      have hle := (of_decide_eq_true hstarts : oldPrefix <+: r.key).length_le
      rw [hrkey] at hle
      omega
    rw [get_rekeyPrefix, hr, Option.map_some, if_neg hroot]

theorem Rooted.dropKey (h : t.Rooted rootKey) (hkey : rootKey.length < key.length) :
    (t.dropKey key).Rooted rootKey := by
  unfold InodeTable.dropKey
  cases hd : t.lookupKey key with
  | none => exact h
  | some d =>
    obtain ⟨m, hm, rfl⟩ := h.wf.byKey key d hd
    exact h.forget (h.ne_root hm hkey)

theorem Rooted.fileRenamed (h : t.Rooted rootKey) {oldFile newFile : Str}
    (hold : rootKey.length < oldFile.length) (hnew : rootKey.length < newFile.length)
    (hkey : rootKey <+: newFile) : (t.fileRenamed oldFile newFile).Rooted rootKey := by
  have hdrop := h.dropKey hnew
  unfold InodeTable.fileRenamed
  cases hino : (t.dropKey newFile).lookupKey oldFile with
  | none => exact hdrop
  | some ino =>
    obtain ⟨m, hm, rfl⟩ := hdrop.wf.byKey oldFile ino hino
    -- what had the new key has been dropped
    have hfree : (t.dropKey newFile).lookupKey newFile = none := by
      rw [lookupKey_dropKey h.wf, if_pos rfl]
    exact hdrop.rekey hm (hdrop.ne_root hm hold) (Or.inl hfree) hkey

end InodeTable

/-! ## Operations -/

theorem Node.lt_length_child {rootKey : Str} {p : Node} (hp : rootKey <+: p.key) {name : Str}
    (hname : name ≠ []) (kind : NodeKind) : rootKey.length < (p.child name kind).length := by
  have hle := hp.length_le
  have hpos := List.length_pos_iff.mpr hname
  cases kind with
  | file =>
    rw [Node.child, List.length_append]
    omega
  | dir =>
    rw [Node.child, List.length_append, List.length_append]
    omega

theorem Node.prefix_child {rootKey : Str} {p : Node} (hp : rootKey <+: p.key) (name : Str)
    (kind : NodeKind) : rootKey <+: p.child name kind := by
  cases kind with
  | file => exact hp.trans (List.prefix_append _ _)
  | dir => exact hp.trans (List.prefix_append_of_prefix (List.prefix_append _ _))

/-- The directory rename, if the operation is one and gets as far as the inode
table, gives out only keys that are not known. -/
def Vfs.RenamesOntoUnknown (s : Vfs) (cfg : VfsConfig) (io : Io) : Op → Prop
  | .rename parent name newparent newname =>
    ∀ p np e, s.inodes.get parent = some p → s.inodes.get newparent = some np →
      (Vfs.stat io.stat (cfg.url (p.key ++ name)) s).1 = .error e → e.isNotFound = true →
      (Vfs.moveTree cfg io name (p.key ++ name ++ ['/']) (np.key ++ newname ++ ['/']) s).1 = .ok () →
        s.inodes.FreeFor (p.key ++ name ++ ['/']) (np.key ++ newname ++ ['/'])
  | _ => True

theorem TableStep.rooted {cfg : VfsConfig} {io : Io} {o : Op} {s : Vfs} {t t' : InodeTable}
    {rootKey : Str} (hstep : TableStep cfg io o s t t') (hnames : ∀ name ∈ o.names, name ≠ [])
    (hC : s.RenamesOntoUnknown cfg io o) (h : t.Rooted rootKey) : t'.Rooted rootKey := by
  cases hstep with
  | @intern t parent p name kind hp hdir hname =>
    exact h.intern (Node.prefix_child (h.under parent p hp) name kind) kind parent
  | @forget t parent ino p name kind hp hname hino =>
    obtain ⟨m, hm, hkey⟩ := h.wf.byKey _ ino hino
    have hlen := Node.lt_length_child (h.under parent p hp) (hnames name hname) kind
    exact h.forget (h.ne_root hm (by rw [hkey]; exact hlen))
  | @renameFile parent newparent name newname p np obj ho hp hnp hstat hmove =>
    subst ho
    exact h.fileRenamed
      (Node.lt_length_child (h.under parent p hp) (hnames name (by simp [Op.names])) .file)
      (Node.lt_length_child (h.under newparent np hnp) (hnames newname (by simp [Op.names])) .file)
      (Node.prefix_child (h.under newparent np hnp) newname .file)
  | @renameDir parent newparent name newname p np e ho hp hnp hstat hnot hmove =>
    subst ho
    exact h.rekeyPrefix io.order
      (Node.lt_length_child (h.under parent p hp) (hnames name (by simp [Op.names])) .dir)
      (Node.prefix_child (h.under newparent np hnp) newname .dir)
      (hC p np e hp hnp hstat hnot hmove)

/-- An inode that is gone. -/
def InodeTable.Gone (t : InodeTable) (i : Nat) : Prop := i < t.next ∧ t.get i = none

theorem InodeTable.Gone.forget {t : InodeTable} {i : Nat} (h : t.Gone i) (ino : Nat) :
    (t.forget ino).Gone i := by
  refine ⟨by rw [next_forget]; exact h.1, ?_⟩
  rw [get_forget, h.2]
  exact ite_self none

theorem InodeTable.Gone.rekey {t : InodeTable} {i : Nat} (h : t.Gone i) (ino : Nat) (key : Str) :
    (t.rekey ino key).Gone i := by
  refine ⟨by rw [next_rekey]; exact h.1, ?_⟩
  rw [get_rekey, h.2]
  exact ite_self none

theorem InodeTable.Gone.dropKey {t : InodeTable} {i : Nat} (h : t.Gone i) (key : Str) :
    (t.dropKey key).Gone i := by
  unfold InodeTable.dropKey
  split
  · exact h.forget _
  · exact h

/-- No change brings an inode back. -/
theorem TableStep.gone {cfg : VfsConfig} {io : Io} {o : Op} {s : Vfs} {t t' : InodeTable} {i : Nat}
    (hstep : TableStep cfg io o s t t') (h : t.Gone i) : t'.Gone i := by
  cases hstep with
  | intern hp hdir hname =>
    refine ⟨Nat.lt_of_lt_of_le h.1 (InodeTable.next_le_intern _ _ _ _), ?_⟩
    rw [InodeTable.get_intern_of_lt _ _ _ _ h.1]
    exact h.2
  | forget kind hp hname hino => exact h.forget _
  | renameFile ho hp hnp hstat hmove =>
    unfold InodeTable.fileRenamed
    split
    · exact h.dropKey _
    · exact (h.dropKey _).rekey _ _
  | renameDir ho hp hnp hstat hnot hmove =>
    refine ⟨by rw [InodeTable.next_rekeyPrefix]; exact h.1, ?_⟩
    rw [InodeTable.get_rekeyPrefix, h.2]
    rfl

/-! ## Runs -/

namespace Mounted

variable {cfg : VfsConfig} {rootKey : Str} {m m' : Mounted} {e : MountEvent} {es : List MountEvent}

/-- Names are not empty, and directories are renamed onto unknown keys. -/
def OntoUnknown (cfg : VfsConfig) (m : Mounted) : MountEvent → Prop
  | .op io o => (∀ name ∈ o.names, name ≠ []) ∧ m.vfs.RenamesOntoUnknown cfg io o
  | .unmount _ => True

theorem step_rooted (hC : m.OntoUnknown cfg e) (hstep : step cfg m e = some m')
    (h : m.vfs.inodes.Rooted rootKey) : m'.vfs.inodes.Rooted rootKey := by
  refine table_invariant ?_ hstep h.wf h
  rintro io o t t' rfl ht hrooted
  exact ht.rooted hC.1 hC.2 hrooted

theorem run_gone_inode {i : Nat} (hrun : run cfg m es = some m')
    (hwf : m.vfs.inodes.Wf) (h : m.vfs.inodes.Gone i) : m'.vfs.inodes.Gone i := by
  refine (Machine.run_invariant (P := fun m => m.vfs.inodes.Wf ∧ m.vfs.inodes.Gone i) ?_ hrun
    ⟨hwf, h⟩).2
  intro m e m' hstep hm
  refine ⟨step_wf hstep hm.1, table_invariant (P := fun t => t.Gone i) ?_ hstep hm.1 hm.2⟩
  intro io o t t' _ ht hgone
  exact ht.gone hgone

theorem run_wf (hrun : run cfg m es = some m') (hwf : m.vfs.inodes.Wf) : m'.vfs.inodes.Wf :=
  Machine.run_invariant (fun _ _ _ hstep h => step_wf hstep h) hrun hwf

/-- **The inode table's maps are inverse.** In a run whose directory renames all go
to unknown keys, every state's maps are inverse to each other with all inodes below
the counter and the root among them, and an inode that was handed out and is gone in
some state does not come back in a later one. -/
theorem inode_maps_inverse (cfg : VfsConfig) (rootKey : Str) (bucket : Str → Option Stored)
    (es : List MountEvent) (hC : Machine.Along (step cfg) (OntoUnknown cfg) (new rootKey bucket) es) :
    Machine.Always (step cfg) (fun m => m.vfs.inodes.Inverse) (new rootKey bucket) es ∧
      ∀ es₁ es₂ m t, es = es₁ ++ es₂ → run cfg (new rootKey bucket) es₁ = some m →
        run cfg m es₂ = some t → ∀ i, m.vfs.inodes.Gone i → t.vfs.inodes.Gone i := by
  refine ⟨?_, ?_⟩
  · refine (Machine.always_of_along (P := fun m => m.vfs.inodes.Rooted rootKey) ?_ hC
      (InodeTable.new_rooted rootKey)).imp fun m hm => hm.inverse
    intro m e m' hCe hstep hm
    exact step_rooted hCe hstep hm
  · intro es₁ es₂ m t _ hrun₁ hrun₂ i hgone
    exact run_gone_inode hrun₂ (run_wf hrun₁ (InodeTable.new_wf rootKey)) hgone

/-- The answers of a directory rename of `a` when it holds only its marker. -/
def renameIo : Io where
  list := [{ url := some (VfsConfig.sample.url "a/".toList), typ := .file }]
  listAll := [{ url := some (VfsConfig.sample.url "a/".toList), typ := .file }]

/-- A directory is made and renamed. -/
def renamedAway : List MountEvent :=
  [.op {} (.mkdir rootInode "a".toList),
    .op renameIo (.rename rootInode "a".toList rootInode "c".toList)]

theorem inode_maps_inverse_renamed_away :
    ∃ t, run .sample (new [] fun _ => none) renamedAway = some t ∧
      (t.vfs.inodes.get 2).map Node.key = some "c/".toList ∧
      Machine.Always (step .sample) (fun m => m.vfs.inodes.Inverse) (new [] fun _ => none)
        renamedAway := by
  obtain ⟨t, ht, hkey⟩ : ∃ t, run .sample (new [] fun _ => none) renamedAway = some t ∧
      (t.vfs.inodes.get 2).map Node.key = some "c/".toList :=
    Machine.exists_run_of_any (by decide +kernel)
  refine ⟨t, ht, hkey, (inode_maps_inverse .sample [] (fun _ => none) renamedAway ?_).1⟩
  refine ⟨⟨by decide, trivial⟩, fun m hm => ⟨⟨by decide, ?_⟩, fun _ _ => trivial⟩⟩
  obtain rfl := Option.some.inj hm
  intro p np e hp hnp _ _ _
  have hroot : ((new [] fun _ => none).exec .sample {} (.mkdir rootInode "a".toList)).vfs.inodes.get
      rootInode = some ⟨[], .dir, rootInode⟩ := by decide +kernel
  obtain rfl := Option.some.inj (hp.symm.trans hroot)
  obtain rfl := Option.some.inj (hnp.symm.trans hroot)
  decide +kernel

/-- Two directories are made and one is renamed onto the other. -/
def renamedOnto : List MountEvent :=
  [.op {} (.mkdir rootInode "a".toList), .op {} (.mkdir rootInode "b".toList),
    .op renameIo (.rename rootInode "a".toList rootInode "b".toList)]

/-- The directory renamed onto has an inode that its key no longer leads to. -/
theorem renamed_onto_known_not_inverse :
    ∃ t, run .sample (new [] fun _ => none) renamedOnto = some t ∧ ¬ t.vfs.inodes.Inverse := by
  obtain ⟨t, ht, hkey, hlookup⟩ : ∃ t, run .sample (new [] fun _ => none) renamedOnto = some t ∧
      (t.vfs.inodes.get 3).map Node.key = some "b/".toList ∧
      t.vfs.inodes.lookupKey "b/".toList = some 2 := Machine.exists_run_of_any (by decide +kernel)
  refine ⟨t, ht, fun hinv => ?_⟩
  obtain ⟨n, hn, hnkey⟩ := Option.map_eq_some_iff.mp hkey
  have hback := hinv.nodes 3 n hn
  rw [hnkey, hlookup] at hback
  exact absurd hback (by decide)

end Mounted

end Rs5cmd
