import Rs5cmd.Theorems.InodeMaps

/-!
# The recorded parent is the directory that holds the file

A node has its parent inode beside its key, and `parent_of` trusts it: it names the
directory whose cached listing a release invalidates. Renames give a node a new key
and leave its parent as it was, so the two agree only as long as what is renamed
stays in its directory.
-/

namespace Rs5cmd

open Cmd Relation

/-- A name that the kernel can send. -/
def IsChildName (name : Str) : Prop := name ≠ [] ∧ '/' ∉ name

instance (name : Str) : Decidable (IsChildName name) := inferInstanceAs (Decidable (_ ∧ _))

/-- The key of the node is that of a child of `p`. -/
def Node.ChildOf (n p : Node) : Prop := ∃ name, IsChildName name ∧ n.key = p.child name n.kind

/-! ## Keys -/

section Keys

variable {p q : Node} {name x r oldDir : Str} {kind : NodeKind}

theorem Node.child_append (q : Node) (name : Str) (kind : NodeKind) :
    ∃ tail, q.child name kind = q.key ++ tail ∧ ∀ key, Node.child { q with key := key } name kind =
      key ++ tail := by
  cases kind with
  | file => exact ⟨name, rfl, fun _ => rfl⟩
  | dir =>
    refine ⟨name ++ ['/'], ?_, fun key => ?_⟩
    · rw [Node.child, List.append_assoc]
    · rw [Node.child, List.append_assoc]

/-- The part of a child's key after its directory's has a slash at most at its
end. -/
theorem eq_nil_of_slash_append (hname : IsChildName name) (h : x ++ '/' :: r = name ++ ['/']) : r = [] := by
  by_contra hr
  -- the last character of both sides is the slash, so the other one is in the name
  obtain ⟨r', c, rfl⟩ := (List.eq_nil_or_concat' r).resolve_left hr
  have hsplit : (x ++ '/' :: r') ++ [c] = name ++ ['/'] := by
    rw [← h]
    simp
  have hinit := (List.append_inj' hsplit rfl).1
  apply hname.2
  rw [← hinit]
  simp

/-- A directory's key that starts a child's key starts the parent's key, or is the
child's key. -/
theorem prefix_parent_or_eq (hname : IsChildName name) (h : oldDir ++ ['/'] <+: q.child name kind) :
    oldDir ++ ['/'] <+: q.key ∨ (kind = .dir ∧ q.child name kind = oldDir ++ ['/']) := by
  obtain ⟨r, hr⟩ := h
  obtain ⟨tail, htail, -⟩ := q.child_append name kind
  rw [htail] at hr
  rcases List.append_eq_append_iff.mp hr with ⟨x, hx, hrest⟩ | ⟨x, hx, hrest⟩
  · -- the directory's key ends inside the parent's
    exact Or.inl ⟨x, hx.symm⟩
  · -- it ends after it, so its last slash is in the rest
    by_cases hnil : x = []
    · subst hnil
      rw [List.append_nil] at hx
      exact Or.inl ⟨[], by rw [List.append_nil, hx]⟩
    · obtain ⟨x', c, rfl⟩ := (List.eq_nil_or_concat' x).resolve_left hnil
      have hlast : c = '/' := by
        have := (List.append_inj' (hx.trans (List.append_assoc _ _ _).symm) rfl).2
        simpa using this.symm
      subst hlast
      cases kind with
      | file =>
        -- a file's name has none
        exfalso
        have hname' : tail = name := List.append_cancel_left (htail.symm.trans rfl)
        apply hname.2
        rw [← hname', hrest]
        simp
      | dir =>
        have hname' : tail = name ++ ['/'] := by
          refine List.append_cancel_left (htail.symm.trans ?_)
          rw [Node.child, List.append_assoc]
        rw [hname', List.append_assoc] at hrest
        have hr := eq_nil_of_slash_append hname hrest.symm
        subst hr
        refine Or.inr ⟨rfl, ?_⟩
        rw [htail, ← hr]
        simp

theorem not_slash_of_name (hname : IsChildName name) (key d : Str) : key ++ name ≠ d ++ ['/'] := by
  intro heq
  obtain ⟨name', c, rfl⟩ := (List.eq_nil_or_concat' name).resolve_left hname.1
  rw [← List.append_assoc] at heq
  have hlast := (List.append_inj' heq rfl).2
  apply hname.2
  rw [hlast]
  simp

end Keys

/-! ## The invariant -/

namespace InodeTable

variable {t : InodeTable} {rootKey : Str}

/-- Every node but the root whose parent is in the table has the key of a child of
that parent. -/
def ParentKeys (t : InodeTable) : Prop :=
  ∀ i n q, t.get i = some n → i ≠ rootInode → t.get n.parent = some q → n.ChildOf q

/-- The invariant behind it. -/
structure Placed (rootKey : Str) (t : InodeTable) : Prop where
  wf : t.Wf
  childOf : t.ParentKeys
  older : ∀ i n, t.get i = some n → n.parent < t.next
  dirs : ∀ i n q, t.get i = some n → t.get n.parent = some q → q.kind = .dir
  slash : ∀ i n, t.get i = some n → i ≠ rootInode → n.kind = .dir → ∃ d, n.key = d ++ ['/']
  under : ∀ i n, t.get i = some n → rootKey <+: n.key
  root : ∀ n, t.get rootInode = some n → n.key = rootKey
  past : rootInode < t.next

theorem new_placed (rootKey : Str) : (new rootKey).Placed rootKey := by
  have hget : ∀ i n, (new rootKey).get i = some n →
      i = rootInode ∧ n = ⟨rootKey, .dir, rootInode⟩ := by
    intro i n hn
    simp only [get, new, Maps.getElem?_insert_eq] at hn
    split at hn
    · rename_i heq
      exact ⟨heq.symm, (Option.some.inj hn).symm⟩
    · simp at hn
  refine ⟨new_wf rootKey, ?_, ?_, ?_, ?_, ?_, ?_, Nat.lt_succ_self _⟩
  · intro i n q hn hi _
    exact absurd (hget i n hn).1 hi
  · intro i n hn
    obtain ⟨-, rfl⟩ := hget i n hn
    exact Nat.lt_succ_self _
  · intro i n q _ hq
    obtain ⟨-, rfl⟩ := hget _ q hq
    rfl
  · intro i n hn hi
    exact absurd (hget i n hn).1 hi
  · intro i n hn
    obtain ⟨-, rfl⟩ := hget i n hn
    exact List.prefix_rfl
  · intro n hn
    obtain ⟨-, rfl⟩ := hget _ n hn
    rfl

theorem Placed.ne_root (h : t.Placed rootKey) {i : Nat} {n : Node} (hn : t.get i = some n)
    (hlen : rootKey.length < n.key.length) : i ≠ rootInode := by
  rintro rfl
  rw [h.root n hn] at hlen
  exact Nat.lt_irrefl _ hlen

/-- Fewer nodes. -/
theorem Placed.mono (h : t.Placed rootKey) {t' : InodeTable} (hwf : t'.Wf) (hnext : t'.next = t.next)
    (hget : ∀ i n, t'.get i = some n → t.get i = some n) : t'.Placed rootKey where
  wf := hwf
  childOf i n q hn hi hq := h.childOf i n q (hget i n hn) hi (hget _ q hq)
  older i n hn := by
    rw [hnext]
    exact h.older i n (hget i n hn)
  dirs i n q hn hq := h.dirs i n q (hget i n hn) (hget _ q hq)
  slash i n hn := h.slash i n (hget i n hn)
  under i n hn := h.under i n (hget i n hn)
  root n hn := h.root n (hget _ n hn)
  past := by
    rw [hnext]
    exact h.past

theorem get_of_get_forget {i j : Nat} {n : Node} (hn : (t.forget i).get j = some n) :
    t.get j = some n := by
  rw [get_forget] at hn
  split at hn
  · cases hn
  · exact hn

theorem Placed.forget (h : t.Placed rootKey) (i : Nat) : (t.forget i).Placed rootKey :=
  h.mono (h.wf.forget i) (next_forget t i) fun _ _ => get_of_get_forget

theorem get_of_get_dropKey {key : Str} {j : Nat} {n : Node} (hn : (t.dropKey key).get j = some n) :
    t.get j = some n := by
  unfold InodeTable.dropKey at hn
  split at hn
  · exact get_of_get_forget hn
  · exact hn

theorem Placed.dropKey (h : t.Placed rootKey) (key : Str) : (t.dropKey key).Placed rootKey := by
  unfold InodeTable.dropKey
  split
  · exact h.forget _
  · exact h

/-! ## Changes -/

theorem Placed.intern (h : t.Placed rootKey) {parent : Nat} {p : Node} {name : Str}
    (hp : t.get parent = some p) (hdir : p.kind = .dir) (hname : IsChildName name) (kind : NodeKind) :
    (t.intern (p.child name kind) kind parent).2.Placed rootKey := by
  have hwf := h.wf.intern (p.child name kind) kind parent
  rcases intern_cases t (p.child name kind) kind parent with ⟨ino, -, heq⟩ | ⟨-, heq⟩
  · rw [heq]
    exact h
  · rw [heq] at hwf ⊢
    have hget : ∀ i n, (t.nodes.insert t.next ⟨p.child name kind, kind, parent⟩)[i]? = some n →
        (i = t.next ∧ n = ⟨p.child name kind, kind, parent⟩) ∨ (i ≠ t.next ∧ t.get i = some n) := by
      intro i n hn
      rw [Maps.getElem?_insert_eq] at hn
      split at hn
      · rename_i hi
        exact Or.inl ⟨hi.symm, (Option.some.inj hn).symm⟩
      · rename_i hi
        exact Or.inr ⟨Ne.symm hi, hn⟩
    have hparent := h.wf.lt_next hp
    -- nothing has the new inode as its parent
    have hgetParent : ∀ j q, j < t.next →
        (t.nodes.insert t.next ⟨p.child name kind, kind, parent⟩)[j]? = some q → t.get j = some q := by
      intro j q hj hq
      rcases hget j q hq with ⟨rfl, -⟩ | ⟨-, hq⟩
      · exact absurd hj (Nat.lt_irrefl _)
      · exact hq
    refine ⟨hwf, ?_, ?_, ?_, ?_, ?_, ?_, Nat.lt_succ_of_lt h.past⟩
    · intro i n q hn hi hq
      rcases hget i n hn with ⟨-, rfl⟩ | ⟨-, hold⟩
      · obtain rfl := Option.some.inj (hp.symm.trans (hgetParent parent q hparent hq))
        exact ⟨name, hname, rfl⟩
      · exact h.childOf i n q hold hi (hgetParent _ q (h.older i n hold) hq)
    · intro i n hn
      rcases hget i n hn with ⟨-, rfl⟩ | ⟨-, hold⟩
      · exact Nat.lt_succ_of_lt hparent
      · exact Nat.lt_succ_of_lt (h.older i n hold)
    · intro i n q hn hq
      rcases hget i n hn with ⟨-, rfl⟩ | ⟨-, hold⟩
      · obtain rfl := Option.some.inj (hp.symm.trans (hgetParent parent q hparent hq))
        exact hdir
      · exact h.dirs i n q hold (hgetParent _ q (h.older i n hold) hq)
    · intro i n hn hi hkind
      rcases hget i n hn with ⟨-, rfl⟩ | ⟨-, hold⟩
      · obtain rfl : kind = .dir := hkind
        exact ⟨p.key ++ name, rfl⟩
      · exact h.slash i n hold hi hkind
    · intro i n hn
      rcases hget i n hn with ⟨-, rfl⟩ | ⟨-, hold⟩
      · exact Node.prefix_child (h.under parent p hp) name kind
      · exact h.under i n hold
    · intro n hn
      rcases hget rootInode n hn with ⟨hroot, rfl⟩ | ⟨-, hold⟩
      · exact absurd hroot (Nat.ne_of_lt h.past)
      · exact h.root n hold

/-- A file that is given another name in its directory. -/
theorem Placed.fileRenamed (h : t.Placed rootKey) {p np : Node} {name newname : Str} {parent : Nat}
    (hp : t.get parent = some p) (hname : IsChildName name) (hnewname : IsChildName newname)
    (hunder : rootKey <+: np.key)
    (hstays : ∀ i n q, t.get i = some n → n.kind = .file → n.key = p.key ++ name →
      t.get n.parent = some q → q.key = np.key) :
    (t.fileRenamed (p.key ++ name) (np.key ++ newname)).Placed rootKey := by
  have hdrop := h.dropKey (np.key ++ newname)
  unfold InodeTable.fileRenamed
  cases hino : (t.dropKey (np.key ++ newname)).lookupKey (p.key ++ name) with
  | none => exact hdrop
  | some ino =>
    obtain ⟨m, hm, hkey⟩ := hdrop.wf.byKey _ ino hino
    have hlen := Node.lt_length_child (h.under parent p hp) hname.1 .file
    have hroot : ino ≠ rootInode := hdrop.ne_root hm (by rw [hkey]; exact hlen)
    -- the key has no slash at its end, so the inode is that of a file
    have hfile : m.kind = .file := by
      cases hkind : m.kind with
      | file => rfl
      | dir =>
        obtain ⟨d, hd⟩ := hdrop.slash ino m hm hroot hkind
        exact absurd (hkey.symm.trans hd) (not_slash_of_name hname p.key d)
    have hget : ∀ i n, ((t.dropKey (np.key ++ newname)).rekey ino (np.key ++ newname)).get i = some n →
        (i = ino ∧ n = { m with key := np.key ++ newname }) ∨
          (i ≠ ino ∧ (t.dropKey (np.key ++ newname)).get i = some n) := by
      intro i n hn
      rw [get_rekey] at hn
      split at hn
      · rename_i hi
        subst hi
        rw [hm] at hn
        exact Or.inl ⟨rfl, (Option.some.inj hn).symm⟩
      · rename_i hi
        exact Or.inr ⟨Ne.symm hi, hn⟩
    -- a file is nobody's parent
    have hgetParent : ∀ i n q, (t.dropKey (np.key ++ newname)).get i = some n →
        ((t.dropKey (np.key ++ newname)).rekey ino (np.key ++ newname)).get n.parent = some q →
          (t.dropKey (np.key ++ newname)).get n.parent = some q := by
      intro i n q hn hq
      rcases hget _ q hq with ⟨hpar, -⟩ | ⟨-, hq⟩
      · have := hdrop.dirs i n m hn (by rw [hpar]; exact hm)
        rw [hfile] at this
        cases this
      · exact hq
    refine ⟨hdrop.wf.rekey ino _, ?_, ?_, ?_, ?_, ?_, ?_, ?_⟩
    · intro i n q hn hi hq
      rcases hget i n hn with ⟨-, rfl⟩ | ⟨-, hold⟩
      · have hq' := hgetParent ino m q hm hq
        have hsame := hstays ino m q (get_of_get_dropKey hm) hfile hkey (get_of_get_dropKey hq')
        refine ⟨newname, hnewname, ?_⟩
        show np.key ++ newname = q.child newname m.kind
        rw [hfile, Node.child, hsame]
      · exact hdrop.childOf i n q hold hi (hgetParent i n q hold hq)
    · intro i n hn
      rw [next_rekey]
      rcases hget i n hn with ⟨-, rfl⟩ | ⟨-, hold⟩
      · exact hdrop.older ino m hm
      · exact hdrop.older i n hold
    · intro i n q hn hq
      rcases hget i n hn with ⟨-, rfl⟩ | ⟨-, hold⟩
      · exact hdrop.dirs ino m q hm (hgetParent ino m q hm hq)
      · exact hdrop.dirs i n q hold (hgetParent i n q hold hq)
    · intro i n hn hi hkind
      rcases hget i n hn with ⟨-, rfl⟩ | ⟨-, hold⟩
      · exact absurd (hfile.symm.trans hkind) (by decide)
      · exact hdrop.slash i n hold hi hkind
    · intro i n hn
      rcases hget i n hn with ⟨-, rfl⟩ | ⟨-, hold⟩
      · exact hunder.trans (List.prefix_append _ _)
      · exact hdrop.under i n hold
    · intro n hn
      rcases hget _ n hn with ⟨hino, -⟩ | ⟨-, hold⟩
      · exact absurd hino.symm hroot
      · exact hdrop.root n hold
    · rw [next_rekey]
      exact hdrop.past

/-- The key that the rename of a directory gives to a node. -/
def movedKey (oldPrefix newPrefix : Str) (key : Str) : Str :=
  if Str.startsWith oldPrefix key then newPrefix ++ key.drop oldPrefix.length else key

theorem get_rekeyPrefix_eq_some {order : List Nat} {oldPrefix newPrefix : Str} {i : Nat} {n : Node} :
    (t.rekeyPrefix order oldPrefix newPrefix).2.get i = some n ↔
      ∃ m, t.get i = some m ∧ n = { m with key := movedKey oldPrefix newPrefix m.key } := by
  rw [get_rekeyPrefix, Option.map_eq_some_iff]
  refine exists_congr fun m => and_congr_right fun _ => ?_
  unfold movedKey
  split
  · exact eq_comm
  · exact eq_comm

theorem movedKey_append (oldPrefix newPrefix r : Str) :
    movedKey oldPrefix newPrefix (oldPrefix ++ r) = newPrefix ++ r := by
  have hstarts : Str.startsWith oldPrefix (oldPrefix ++ r) = true :=
    decide_eq_true (List.prefix_append _ _)
  rw [movedKey, if_pos hstarts, List.drop_left]

theorem movedKey_of_not {oldPrefix newPrefix key : Str} (h : ¬ oldPrefix <+: key) :
    movedKey oldPrefix newPrefix key = key := by
  rw [movedKey, if_neg]
  exact fun hs => h (of_decide_eq_true hs)

/-- A key that ends with a slash still does. -/
theorem movedKey_slash {oldDir newDir key d : Str} (hd : key = d ++ ['/']) :
    ∃ d', movedKey (oldDir ++ ['/']) (newDir ++ ['/']) key = d' ++ ['/'] := by
  by_cases hstarts : oldDir ++ ['/'] <+: key
  · -- what is left of the key ends as the key does, or the new one does
    obtain ⟨r, hr⟩ := hstarts
    rw [← hr, movedKey_append]
    rcases List.eq_nil_or_concat' r with rfl | ⟨r', c, rfl⟩
    · exact ⟨newDir, by rw [List.append_nil]⟩
    · rw [← List.append_assoc] at hr
      obtain rfl : c = '/' := by simpa using (List.append_inj' (hr.trans hd) rfl).2
      exact ⟨newDir ++ ['/'] ++ r', by simp⟩
  · rw [movedKey_of_not hstarts]
    exact ⟨d, hd⟩

/-- The key of a child moves with the key of its directory. The directory that is
renamed itself is the one whose key moves and whose parent's does not. -/
theorem movedKey_child {oldDir newPrefix : Str} {n q : Node} (h : n.ChildOf q)
    (htop : n.kind = .dir → n.key = oldDir ++ ['/'] → Node.ChildOf { n with key := newPrefix } q) :
    Node.ChildOf { n with key := movedKey (oldDir ++ ['/']) newPrefix n.key }
      { q with key := movedKey (oldDir ++ ['/']) newPrefix q.key } := by
  obtain ⟨name, hname, hkey⟩ := h
  by_cases hq : oldDir ++ ['/'] <+: q.key
  · obtain ⟨r, hr⟩ := hq
    obtain ⟨tail, htail, hmoved⟩ := q.child_append name n.kind
    refine ⟨name, hname, ?_⟩
    show movedKey _ _ n.key = Node.child { q with key := movedKey _ _ q.key } name n.kind
    rw [hmoved, hkey, htail, ← hr, List.append_assoc, movedKey_append, movedKey_append,
      List.append_assoc]
  · rw [movedKey_of_not hq]
    by_cases hn : oldDir ++ ['/'] <+: n.key
    · rw [hkey] at hn
      obtain ⟨hkind, heq⟩ := (prefix_parent_or_eq hname hn).resolve_left hq
      have hself : n.key = oldDir ++ ['/'] := hkey.trans heq
      have hmoved : movedKey (oldDir ++ ['/']) newPrefix n.key = newPrefix := by
        rw [hself]
        have := movedKey_append (oldDir ++ ['/']) newPrefix []
        rwa [List.append_nil, List.append_nil] at this
      rw [hmoved]
      exact htop hkind hself
    · rw [movedKey_of_not hn]
      exact ⟨name, hname, hkey⟩

theorem Placed.rekeyPrefix (h : t.Placed rootKey) (order : List Nat) {p np : Node} {name newname : Str}
    {parent : Nat} (hp : t.get parent = some p) (hname : IsChildName name)
    (hnewname : IsChildName newname) (hunder : rootKey <+: np.key)
    (hstays : ∀ i n q, t.get i = some n → n.kind = .dir → n.key = p.key ++ name ++ ['/'] →
      t.get n.parent = some q → q.key = np.key) :
    (t.rekeyPrefix order (p.key ++ name ++ ['/']) (np.key ++ newname ++ ['/'])).2.Placed rootKey := by
  have hlen : rootKey.length < (p.key ++ name ++ ['/']).length :=
    Node.lt_length_child (h.under parent p hp) hname.1 .dir
  have hget : ∀ i n, (t.rekeyPrefix order (p.key ++ name ++ ['/']) (np.key ++ newname ++ ['/'])).2.get
      i = some n → ∃ m, t.get i = some m ∧ n = { m with
        key := movedKey (p.key ++ name ++ ['/']) (np.key ++ newname ++ ['/']) m.key } :=
    fun i n => get_rekeyPrefix_eq_some.mp
  refine ⟨h.wf.rekeyPrefix _ _ _, ?_, ?_, ?_, ?_, ?_, ?_, ?_⟩
  · intro i n q hn hi hq
    obtain ⟨m, hm, rfl⟩ := hget i n hn
    obtain ⟨q', hq', rfl⟩ := hget _ q hq
    refine movedKey_child (h.childOf i m q' hm hi hq') fun hkind hself => ?_
    have hsame := hstays i m q' hm hkind hself hq'
    refine ⟨newname, hnewname, ?_⟩
    show np.key ++ newname ++ ['/'] = q'.child newname m.kind
    rw [hkind, Node.child, hsame]
  · intro i n hn
    obtain ⟨m, hm, rfl⟩ := hget i n hn
    rw [next_rekeyPrefix]
    exact h.older i m hm
  · intro i n q hn hq
    obtain ⟨m, hm, rfl⟩ := hget i n hn
    obtain ⟨q', hq', rfl⟩ := hget _ q hq
    exact h.dirs i m q' hm hq'
  · intro i n hn hi hkind
    obtain ⟨m, hm, rfl⟩ := hget i n hn
    obtain ⟨d, hd⟩ := h.slash i m hm hi hkind
    exact movedKey_slash hd
  · intro i n hn
    obtain ⟨m, hm, rfl⟩ := hget i n hn
    show rootKey <+: movedKey _ _ m.key
    by_cases hstarts : p.key ++ name ++ ['/'] <+: m.key
    · obtain ⟨r, hr⟩ := hstarts
      rw [← hr, movedKey_append]
      exact (Node.prefix_child hunder newname .dir).trans (List.prefix_append _ _)
    · rw [movedKey_of_not hstarts]
      exact h.under i m hm
  · intro n hn
    obtain ⟨m, hm, rfl⟩ := hget _ n hn
    have hkey := h.root m hm
    show movedKey _ _ m.key = rootKey
    rw [movedKey_of_not, hkey]
    intro hstarts
    have hle := hstarts.length_le
    rw [hkey] at hle
    omega
  · rw [next_rekeyPrefix]
    exact h.past

end InodeTable

/-! ## Operations -/

/-- What the kernel and the service promise: names are names, what `mkdir` is
given is a directory, and a directory is listed one level deep. -/
structure Vfs.Proper (s : Vfs) (io : Io) (o : Op) : Prop where
  names : ∀ name ∈ o.names, IsChildName name
  mkdir : ∀ parent name p, o = .mkdir parent name → s.inodes.get parent = some p → p.kind = .dir
  listed : ∀ ino p name kind, o = .readdir ino → s.inodes.get ino = some p →
    ListsChild io.list p name kind → '/' ∉ name

/-- The branch of a rename that gets as far as the inode table. -/
def Vfs.renamed (s : Vfs) (cfg : VfsConfig) (io : Io) (name oldFile newFile : Str) :
    Option NodeKind :=
  match (Vfs.stat io.stat (cfg.url oldFile) s).1 with
  | .ok _ =>
    match (Vfs.moveFile cfg io oldFile newFile s).1 with
    | .ok () => some .file
    | .error _ => none
  | .error e =>
    if e.isNotFound then
      match (Vfs.moveTree cfg io name (oldFile ++ ['/']) (newFile ++ ['/']) s).1 with
      | .ok () => some .dir
      | .error _ => none
    else none

/-- What is renamed stays in its directory, as far as the table knows that. -/
def Vfs.RenamesWithin (s : Vfs) (cfg : VfsConfig) (io : Io) : Op → Prop
  | .rename parent name newparent newname =>
    ∀ p np, s.inodes.get parent = some p → s.inodes.get newparent = some np →
      ∀ i n q, s.inodes.get i = some n → n.key = p.child name n.kind →
        s.renamed cfg io name (p.key ++ name) (np.key ++ newname) = some n.kind →
        s.inodes.get n.parent = some q → q.key = np.key
  | _ => True

theorem TableStep.placed {cfg : VfsConfig} {io : Io} {o : Op} {s : Vfs} {t t' : InodeTable}
    {rootKey : Str} (hstep : TableStep cfg io o s t t') (hproper : s.Proper io o)
    (hwithin : s.RenamesWithin cfg io o) (hmkdir : ∀ parent name, o ≠ .mkdir parent name)
    (h : t.Placed rootKey) : t'.Placed rootKey := by
  cases hstep with
  | @intern t parent p name kind hp hdir hname =>
    have hdir' : p.kind = .dir := by
      have hdir := hdir.resolve_right (hmkdir parent name)
      cases hkind : p.kind with
      | dir => rfl
      | file =>
        rw [hkind] at hdir
        cases hdir
    refine h.intern hp hdir' ?_ kind
    rcases hname with hname | ⟨ho, hps, hlists⟩
    · exact hproper.names name hname
    · have hne : name ≠ [] := by
        obtain ⟨_, _, _, _, _, hne, _⟩ := hlists
        exact hne
      exact ⟨hne, hproper.listed parent p name kind ho hps hlists⟩
  | forget kind hp hname hino => exact h.forget _
  | @renameFile parent newparent name newname p np obj ho hp hnp hstat hmove =>
    subst ho
    refine h.fileRenamed hp (hproper.names name (by simp [Op.names]))
      (hproper.names newname (by simp [Op.names])) (h.under newparent np hnp) ?_
    intro i n q hn hkind hkey hq
    refine hwithin p np hp hnp i n q hn ?_ ?_ hq
    · rw [hkind]
      exact hkey
    · simp only [Vfs.renamed, hstat, hmove, hkind]
  | @renameDir parent newparent name newname p np e ho hp hnp hstat hnot hmove =>
    subst ho
    refine h.rekeyPrefix io.order hp (hproper.names name (by simp [Op.names]))
      (hproper.names newname (by simp [Op.names])) (h.under newparent np hnp) ?_
    intro i n q hn hkind hkey hq
    refine hwithin p np hp hnp i n q hn ?_ ?_ hq
    · rw [hkind]
      exact hkey
    · simp only [Vfs.renamed, hstat, hnot, if_true, hmove, hkind]

/-! ## Runs -/

namespace Mounted

variable {cfg : VfsConfig} {rootKey : Str} {m m' : Mounted} {e : MountEvent} {es : List MountEvent}

/-- The operation is one that the kernel and the service can bring about, and what
it renames stays in its directory. -/
def Within (cfg : VfsConfig) (m : Mounted) : MountEvent → Prop
  | .op io o => m.vfs.Proper io o ∧ m.vfs.RenamesWithin cfg io o
  | .unmount _ => True

theorem step_placed (hC : m.Within cfg e) (hstep : step cfg m e = some m')
    (h : m.vfs.inodes.Placed rootKey) : m'.vfs.inodes.Placed rootKey := by
  cases e with
  | unmount removed =>
    obtain ⟨-, rfl⟩ := step_unmount hstep
    exact h
  | op io o =>
    obtain ⟨hproper, hwithin⟩ := hC
    by_cases hmk : ∃ parent name, o = .mkdir parent name
    · -- `mkdir` does not look at what its parent is, so its one change is taken from the start
      obtain ⟨parent, name, rfl⟩ := hmk
      obtain ⟨-, rfl⟩ := step_op hstep
      show (Op.exec cfg io (.mkdir parent name) m.vfs).2.inodes.Placed rootKey
      simp only [Op.exec, bind_pure_run]
      rcases mkdir_table cfg io parent name m.vfs with heq | ⟨p, hp, heq⟩
      · rw [heq]
        exact h
      · rw [heq]
        exact h.intern hp (hproper.mkdir parent name p rfl hp)
          (hproper.names name (by simp [Op.names])) .dir
    · refine table_invariant ?_ hstep h.wf h
      intro io' o' t t' he ht
      obtain ⟨rfl, rfl⟩ := MountEvent.op.inj he
      exact ht.placed hproper hwithin fun parent name ho => hmk ⟨parent, name, ho⟩

/-- The inode that `parent_of` names, if the table has it, is that of the directory
that holds the file. -/
def ParentsHold (m : Mounted) : Prop :=
  m.vfs.inodes.ParentKeys ∧ ∀ ino n q, m.vfs.inodes.get ino = some n → ino ≠ rootInode →
    m.vfs.inodes.get (m.vfs.parentOf ino) = some q → q.kind = .dir ∧ n.ChildOf q

theorem parentsHold_of_placed (h : m.vfs.inodes.Placed rootKey) : m.ParentsHold := by
  refine ⟨h.childOf, fun ino n q hn hroot hq => ?_⟩
  have hparent : m.vfs.parentOf ino = n.parent := by
    unfold Vfs.parentOf
    rw [hn]
  rw [hparent] at hq
  exact ⟨h.dirs ino n q hn hq, h.childOf ino n q hn hroot hq⟩

/-- **Parents are coherent with keys.** In a run in which every rename leaves what
it moves in its directory, every node of every state has the key of a child of its
recorded parent, and `parent_of` names the directory that holds it. -/
theorem parent_keys_coherent (cfg : VfsConfig) (rootKey : Str) (bucket : Str → Option Stored)
    (es : List MountEvent) (hC : Machine.Along (step cfg) (Within cfg) (new rootKey bucket) es) :
    Machine.Always (step cfg) ParentsHold (new rootKey bucket) es := by
  refine (Machine.always_of_along (P := fun m => m.vfs.inodes.Placed rootKey) ?_ hC
    (InodeTable.new_placed rootKey)).imp fun m hm => parentsHold_of_placed hm
  intro m e m' hCe hstep hm
  exact step_placed hCe hstep hm

/-- A directory is made and renamed where it is. -/
theorem parent_keys_coherent_renamed_away :
    ∃ t, run .sample (new [] fun _ => none) renamedAway = some t ∧
      t.vfs.inodes.get 2 = some ⟨"c/".toList, .dir, rootInode⟩ ∧
      Machine.Always (step .sample) ParentsHold (new [] fun _ => none) renamedAway := by
  obtain ⟨t, ht, hkey⟩ : ∃ t, run .sample (new [] fun _ => none) renamedAway = some t ∧
      t.vfs.inodes.get 2 = some ⟨"c/".toList, .dir, rootInode⟩ :=
    Machine.exists_run_of_any (by decide +kernel)
  refine ⟨t, ht, hkey, parent_keys_coherent .sample [] (fun _ => none) renamedAway ?_⟩
  have hroot : (new [] fun _ => none).vfs.inodes.get rootInode = some ⟨[], .dir, rootInode⟩ := by
    decide +kernel
  refine ⟨⟨⟨by decide, ?_, nofun⟩, trivial⟩, fun m hm => ⟨⟨⟨by decide, nofun, nofun⟩, ?_⟩,
    fun _ _ => trivial⟩⟩
  · intro parent name p ho hp
    obtain ⟨rfl, -⟩ := Op.mkdir.inj ho
    obtain rfl := Option.some.inj (hp.symm.trans hroot)
    rfl
  · obtain rfl := Option.some.inj hm
    intro p np hp hnp i n q hn hkey _ hq
    -- the one node with the key of the directory has the root as its parent
    have hroot' : ((new [] fun _ => none).exec .sample {} (.mkdir rootInode "a".toList)).vfs.inodes.get
        rootInode = some ⟨[], .dir, rootInode⟩ := by decide +kernel
    obtain rfl := Option.some.inj (hnp.symm.trans hroot')
    have hlt := (step_wf (m := new [] fun _ => none) hm (InodeTable.new_wf [])).lt_next hn
    have hnext : ((new [] fun _ => none).exec .sample {} (.mkdir rootInode "a".toList)).vfs.inodes.next =
        3 := by decide +kernel
    rw [hnext] at hlt
    have hparent : n.parent = rootInode := by
      have hall : ∀ i < 3, ((new [] fun _ => none).exec .sample {}
          (.mkdir rootInode "a".toList)).vfs.inodes.get i = none ∨
          (((new [] fun _ => none).exec .sample {} (.mkdir rootInode "a".toList)).vfs.inodes.get i).map
            Node.parent = some rootInode := by decide +kernel
      have hi := hall i hlt
      rw [hn] at hi
      simpa using hi
    rw [hparent, hroot'] at hq
    obtain rfl := Option.some.inj hq
    rfl

/-- A directory and a file are made, and the file is renamed into the directory. -/
def renamedInto : List MountEvent :=
  [.op {} (.mkdir rootInode "d".toList), .op {} (.create rootInode "x".toList),
    .op {} (.release 2), .op {} (.rename rootInode "x".toList 2 "x".toList)]

/-- The file is in the directory and its parent is still the root. -/
theorem renamed_into_directory_not_coherent :
    ∃ t, run .sample (new [] fun _ => none) renamedInto = some t ∧
      t.vfs.inodes.get 3 = some ⟨"d/x".toList, .file, rootInode⟩ ∧ ¬ t.ParentsHold := by
  obtain ⟨t, ht, hkey, hroot⟩ : ∃ t, run .sample (new [] fun _ => none) renamedInto = some t ∧
      t.vfs.inodes.get 3 = some ⟨"d/x".toList, .file, rootInode⟩ ∧
      t.vfs.inodes.get rootInode = some ⟨[], .dir, rootInode⟩ :=
    Machine.exists_run_of_any (by decide +kernel)
  refine ⟨t, ht, hkey, fun hold => ?_⟩
  obtain ⟨name, hname, heq⟩ := hold.1 3 _ _ hkey (by decide) hroot
  obtain rfl : "d/x".toList = name := heq
  exact absurd hname (by decide)

end Mounted

end Rs5cmd
