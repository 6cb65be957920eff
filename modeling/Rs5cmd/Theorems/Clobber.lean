import Rs5cmd.Lib.Copies
import Rs5cmd.Mount.Probe
import Rs5cmd.Theorems.DirRename

/-!
# What a directory rename does to the other objects

The keys to move are those of a recursive listing, which takes a directory's name as
a wildcard, and each is copied to its new key without a look at what is there. So an
object outside the old directory is lost when the wildcard matches it, and gets other
bytes when it is where a key is copied to; a key that is copied may itself have been
overwritten before. Nothing looks at whether the destination is empty either.
-/

namespace Rs5cmd

open Cmd

/-- The bytes of the objects. -/
def bytesAt (bucket : Str → Option Stored) (key : Str) : Option (List UInt8) :=
  (bucket key).map Stored.bytes

theorem hasBytes_iff {bucket : Str → Option Stored} {key : Str} {b : List UInt8} :
    HasBytes bucket key b ↔ bytesAt bucket key = some b :=
  Option.map_eq_some_iff.symm

/-- Where a rename copies a listed key. -/
def movedKey (oldPrefix newPrefix key : Str) : Str :=
  newPrefix ++ (Str.stripPrefix oldPrefix key).getD key

theorem movedKey_append (oldPrefix newPrefix suffix : Str) :
    movedKey oldPrefix newPrefix (oldPrefix ++ suffix) = newPrefix ++ suffix := by
  simp [movedKey, Str.stripPrefix]

/-! ## The two loops -/

section Loops

variable {cfg : VfsConfig} {io : Io} {oldPrefix newPrefix : Str} {s t : Vfs}

theorem bytesAt_put (s : Vfs) (io : Io) (key : Str) (b : List UInt8) :
    bytesAt (s.put io key b).bucket = Function.update (bytesAt s.bucket) key (some b) :=
  Function.comp_update (Option.map Stored.bytes) s.bucket key _

theorem bytesAt_remove (s : Vfs) (key : Str) :
    bytesAt (s.remove key).bucket = Function.update (bytesAt s.bucket) key none :=
  Function.comp_update (Option.map Stored.bytes) s.bucket key _

/-- What one listed key is copied by. -/
def copyKey (cfg : VfsConfig) (io : Io) (oldPrefix newPrefix : Str) (e : Str × Nat) : VfsM Unit := do
  let src ← ofExcept (cfg.objUrl e.1)
  let dst ← ofExcept (cfg.objUrl (movedKey oldPrefix newPrefix e.1))
  Vfs.copy (io.copy e.2) io src dst

theorem copyKey_eq (key : Str) (i : Nat) : copyKey cfg io oldPrefix newPrefix (key, i) s =
    Vfs.copy (io.copy i) io (cfg.url key) (cfg.url (movedKey oldPrefix newPrefix key)) s := by
  unfold copyKey
  simp only [cfg.objUrl_eq, ofExcept_ok_bind]

/-- Copies that all succeed. -/
theorem bytesAt_copyKeys {keys : List Str} {i : Nat}
    (h : forEach (copyKey cfg io oldPrefix newPrefix) (keys.zipIdx i) s = (.ok (), t)) :
    bytesAt t.bucket = Copies.run (movedKey oldPrefix newPrefix) keys (bytesAt s.bucket) := by
  induction keys generalizing i s with
  | nil =>
    obtain rfl : s = t := congrArg Prod.snd h
    rfl
  | cons key keys ih =>
    rw [List.zipIdx_cons, forEach] at h
    rcases copy_cases (io.copy i) io (cfg.url key) (cfg.url (movedKey oldPrefix newPrefix key)) s with
      ⟨o, ho, hrun⟩ | ⟨e, u, hrun, -⟩
    · rw [bind_ok ((copyKey_eq key i).trans hrun)] at h
      have hbytes : bytesAt s.bucket key = some o.bytes := congrArg (Option.map Stored.bytes) ho
      rw [ih h, bytesAt_put, ← hbytes]
      rfl
    · rw [bind_error ((copyKey_eq key i).trans hrun)] at h
      cases h

/-- Copies of objects that are there succeed unless a request fails. -/
theorem exists_copyKeys (hfault : ∀ i, io.copy i = none) {keys : List Str} {i : Nat}
    (hkeys : ∀ key ∈ keys, s.bucket key ≠ none) :
    ∃ t, forEach (copyKey cfg io oldPrefix newPrefix) (keys.zipIdx i) s = (.ok (), t) := by
  induction keys generalizing i s with
  | nil => exact ⟨s, rfl⟩
  | cons key keys ih =>
    obtain ⟨o, ho⟩ := Option.ne_none_iff_exists'.mp (hkeys key List.mem_cons_self)
    let dst := movedKey oldPrefix newPrefix key
    have hrun : copyKey cfg io oldPrefix newPrefix (key, i) s = (.ok (), s.put io dst o.bytes) := by
      rw [copyKey_eq, Vfs.copy, get_bind, VfsConfig.url_path, ho, hfault]
      rfl
    have hrest : ∀ k ∈ keys, (s.put io dst o.bytes).bucket k ≠ none := by
      intro k hk
      by_cases hdst : k = dst
      · rw [hdst, Vfs.bucket_put_self]
        simp
      · rw [Vfs.bucket_put_of_ne _ _ hdst]
        exact hkeys k (List.mem_cons_of_mem key hk)
    obtain ⟨t, ht⟩ := ih (i := i + 1) hrest
    refine ⟨t, ?_⟩
    rw [List.zipIdx_cons, forEach, bind_ok hrun]
    exact ht

/-- What one listed key is deleted by. -/
def deleteKey (cfg : VfsConfig) (io : Io) (e : Str × Nat) : VfsM Unit := do
  let url ← ofExcept (cfg.objUrl e.1)
  Vfs.delete (io.delete e.2) url

theorem deleteKey_eq (key : Str) (i : Nat) :
    deleteKey cfg io (key, i) s = Vfs.delete (io.delete i) (cfg.url key) s := by
  unfold deleteKey
  simp only [cfg.objUrl_eq, ofExcept_ok_bind]

/-- Deletions that all succeed. -/
theorem bytesAt_deleteKeys {keys : List Str} {i : Nat}
    (h : forEach (deleteKey cfg io) (keys.zipIdx i) s = (.ok (), t)) (key : Str) :
    bytesAt t.bucket key = if key ∈ keys then none else bytesAt s.bucket key := by
  induction keys generalizing i s with
  | nil =>
    obtain rfl : s = t := congrArg Prod.snd h
    rfl
  | cons k keys ih =>
    rw [List.zipIdx_cons, forEach] at h
    rcases delete_cases (io.delete i) (cfg.url k) s with hrun | ⟨e, u, hrun, -⟩
    · rw [bind_ok ((deleteKey_eq k i).trans hrun)] at h
      rw [ih h, VfsConfig.url_path, bytesAt_remove]
      by_cases hk : key = k
      · subst hk
        rw [Function.update_self, if_pos List.mem_cons_self, ite_self]
      · simp only [List.mem_cons, hk, false_or, Function.update_of_ne hk]
    · rw [bind_error ((deleteKey_eq k i).trans hrun)] at h
      cases h

theorem exists_deleteKeys (hfault : ∀ i, io.delete i = none) (keys : List Str) (i : Nat) (s : Vfs) :
    ∃ t, forEach (deleteKey cfg io) (keys.zipIdx i) s = (.ok (), t) := by
  induction keys generalizing i s with
  | nil => exact ⟨s, rfl⟩
  | cons key keys ih =>
    have hrun : deleteKey cfg io (key, i) s = (.ok (), s.remove key) := by
      rw [deleteKey_eq, hfault]
      rfl
    obtain ⟨t, ht⟩ := ih (i + 1) (s.remove key)
    refine ⟨t, ?_⟩
    rw [List.zipIdx_cons, forEach, bind_ok hrun]
    exact ht

/-- The bytes after the listed keys have been copied and then deleted. -/
def movedBytes (oldPrefix newPrefix : Str) (keys : List Str) (b : Str → Option (List UInt8))
    (key : Str) : Option (List UInt8) :=
  if key ∈ keys then none else Copies.run (movedKey oldPrefix newPrefix) keys b key

/-- A move of the tree that returns. -/
theorem moveTree_ok {name : Str} (h : Vfs.moveTree cfg io name oldPrefix newPrefix s = (.ok (), t)) :
    Vfs.prefixExists cfg io.list oldPrefix s = (.ok true, s) ∧
      ∃ keys, Vfs.listedKeys io.listAll s = (.ok keys, s) ∧
        bytesAt t.bucket = movedBytes oldPrefix newPrefix keys (bytesAt s.bucket) := by
  have hprefix := prefixExists_run cfg io.list oldPrefix s
  unfold Vfs.moveTree at h
  cases hexists : Vfs.prefixExists cfg io.list oldPrefix s with
  | mk r u =>
    rw [hexists] at hprefix
    obtain rfl : u = s := hprefix
    cases r with
    | error e =>
      rw [bind_error hexists] at h
      cases h
    | ok found =>
      rw [bind_ok hexists] at h
      cases found with
      | false => cases h
      | true =>
        refine ⟨rfl, ?_⟩
        simp only [Bool.not_true, Bool.false_eq_true, if_false] at h
        have hkeep := (keeps_listedKeys (I := (· = u)) io.listAll).snd rfl
        cases hkeys : Vfs.listedKeys io.listAll u with
        | mk r v =>
          rw [hkeys] at hkeep
          obtain rfl : v = u := hkeep
          cases r with
          | error e =>
            rw [bind_error hkeys] at h
            cases h
          | ok keys =>
            rw [bind_ok hkeys] at h
            refine ⟨keys, rfl, ?_⟩
            cases hcopy : Vfs.copyKeys cfg io oldPrefix newPrefix keys v with
            | mk r w =>
              cases r with
              | error e =>
                rw [bind_error hcopy] at h
                cases h
              | ok x =>
                rw [bind_ok hcopy] at h
                funext key
                rw [bytesAt_deleteKeys h key, bytesAt_copyKeys hcopy]
                rfl

/-- Without faults the move returns. -/
theorem exists_moveTree (hcopy : ∀ i, io.copy i = none) (hdelete : ∀ i, io.delete i = none)
    (hexists : Vfs.prefixExists cfg io.list oldPrefix s = (.ok true, s)) {keys : List Str}
    (hkeys : Vfs.listedKeys io.listAll s = (.ok keys, s)) (hthere : ∀ key ∈ keys, s.bucket key ≠ none)
    (name : Str) : ∃ t, Vfs.moveTree cfg io name oldPrefix newPrefix s = (.ok (), t) := by
  obtain ⟨u, hu⟩ : ∃ u, Vfs.copyKeys cfg io oldPrefix newPrefix keys s = (.ok (), u) :=
    exists_copyKeys hcopy hthere
  obtain ⟨t, ht⟩ : ∃ t, Vfs.deleteKeys cfg io keys u = (.ok (), t) :=
    exists_deleteKeys hdelete keys 0 u
  refine ⟨t, ?_⟩
  unfold Vfs.moveTree
  rw [bind_ok hexists]
  simp only [Bool.not_true, Bool.false_eq_true, if_false]
  rw [bind_ok hkeys, bind_ok hu]
  exact ht

end Loops

/-! ## The rename -/

section Rename

variable {cfg : VfsConfig} {io : Io} {s : Vfs} {parent newparent : Nat} {name newname : Str}
  {p np : Node}

/-- A rename of a directory that returns has moved the tree. -/
theorem rename_dir_ok (hp : s.inodes.get parent = some p) (hnp : s.inodes.get newparent = some np)
    (hdir : s.bucket (p.key ++ name) = none)
    (hok : (Vfs.rename cfg io parent name newparent newname s).1 = .ok ()) :
    ∃ t, Vfs.moveTree cfg io name (p.key ++ name ++ ['/']) (np.key ++ newname ++ ['/']) s = (.ok (), t) ∧
      (Vfs.rename cfg io parent name newparent newname s).2.bucket = t.bucket := by
  obtain ⟨e, he⟩ : ∃ e, (Vfs.stat io.stat (cfg.url (p.key ++ name)) s).1 = .error e := by
    cases io.stat with
    | some e => exact ⟨_, rfl⟩
    | none => exact ⟨_, congrArg Prod.fst (stat_missing hdir)⟩
  rw [rename_dir hp hnp he] at hok ⊢
  split at hok
  · rename_i hnot
    rw [if_pos hnot]
    rcases renameDir_cases cfg io s parent newparent name (p.key ++ name ++ ['/'])
      (np.key ++ newname ++ ['/']) with ⟨e', t, -, hrun, -⟩ | ⟨t, u, hmove, hrun, hbucket⟩
    · rw [hrun] at hok
      cases hok
    · exact ⟨t, hmove, by rw [hrun, hbucket]⟩
  · cases hok

/-- A rename of what is no file. -/
theorem rename_missing_file (hp : s.inodes.get parent = some p)
    (hnp : s.inodes.get newparent = some np) (hstat : io.stat = none)
    (hdir : s.bucket (p.key ++ name) = none) : Vfs.rename cfg io parent name newparent newname s =
      Vfs.renameDir cfg io parent newparent name (p.key ++ name ++ ['/'])
        (np.key ++ newname ++ ['/']) s := by
  have hmissing : (Vfs.stat io.stat (cfg.url (p.key ++ name)) s).1 =
      .error (notFound (cfg.url (p.key ++ name)).absolute) := by
    rw [hstat]
    exact congrArg Prod.fst (stat_missing hdir)
  exact (rename_dir hp hnp hmissing).trans (if_pos rfl)

/-- Without faults the rename returns. -/
theorem exists_rename_dir (hp : s.inodes.get parent = some p)
    (hnp : s.inodes.get newparent = some np) (hdir : s.bucket (p.key ++ name) = none)
    (hio : Faultless cfg s.bucket (p.key ++ name ++ ['/']) io) {keys : List Str}
    (hkeys : Vfs.listedKeys io.listAll s = (.ok keys, s)) {key : Str}
    (hkey : cfg.Lists s.bucket (p.key ++ name ++ ['/']) key) (newname : Str) :
    ∃ u, Vfs.rename cfg io parent name newparent newname s = (.ok (), u) ∧
      bytesAt u.bucket = movedBytes (p.key ++ name ++ ['/']) (np.key ++ newname ++ ['/']) keys
        (bytesAt s.bucket) := by
  obtain ⟨b, hexists, hb⟩ := hio.list.prefixExists
  obtain rfl : b = true := hb.mpr ⟨key, hkey⟩
  have hthere : ∀ key ∈ keys, s.bucket key ≠ none := by
    obtain ⟨keys', hkeys', hmem⟩ := hio.listAll.listedKeys
    obtain rfl : keys' = keys := Except.ok.inj (congrArg Prod.fst (hkeys'.symm.trans hkeys))
    exact fun key hkey => ((hmem key).mp hkey).1
  obtain ⟨t, ht⟩ : ∃ t, Vfs.moveTree cfg io name (p.key ++ name ++ ['/'])
      (np.key ++ newname ++ ['/']) s = (.ok (), t) :=
    exists_moveTree hio.copy hio.delete hexists hkeys hthere name
  obtain ⟨-, keys', hkeys', hbytes⟩ := moveTree_ok ht
  obtain rfl : keys' = keys := Except.ok.inj (congrArg Prod.fst (hkeys'.symm.trans hkeys))
  have hrename : Vfs.rename cfg io parent name newparent newname s = _ :=
    rename_missing_file hp hnp hio.stat hdir
  rcases renameDir_cases cfg io s parent newparent name (p.key ++ name ++ ['/'])
    (np.key ++ newname ++ ['/']) with ⟨e', t', hmove, -, -⟩ | ⟨t', u, hmove, hrun, hbucket⟩
  · rw [ht] at hmove
    cases hmove
  · obtain rfl : t = t' := congrArg Prod.snd (ht.symm.trans hmove)
    exact ⟨u, hrename.trans hrun, by rw [hbucket, hbytes]⟩

/-- A directory rename that returns leaves every object outside the old directory
under its key, with its bytes. -/
def KeepsOthers (cfg : VfsConfig) (s : Vfs) (parent : Nat) (name : Str) (newparent : Nat)
    (newname : Str) (p : Node) : Prop :=
  ∀ io : Io, HonestList s.bucket (cfg.url (p.key ++ name ++ ['/'])) io.list →
    HonestList s.bucket (cfg.treeUrl (p.key ++ name ++ ['/'])) io.listAll →
      s.bucket (p.key ++ name) = none →
        (Vfs.rename cfg io parent name newparent newname s).1 = .ok () →
          ∀ key o, s.bucket key = some o → ¬ (p.key ++ name ++ ['/']) <+: key →
            HasBytes (Vfs.rename cfg io parent name newparent newname s).2.bucket key o.bytes

/-- A directory rename onto another directory that is not empty fails. -/
def RefusesNonEmpty (cfg : VfsConfig) (s : Vfs) (parent : Nat) (name : Str) (newparent : Nat)
    (newname : Str) (p np : Node) : Prop :=
  ∀ io : Io, HonestList s.bucket (cfg.url (p.key ++ name ++ ['/'])) io.list →
    HonestList s.bucket (cfg.treeUrl (p.key ++ name ++ ['/'])) io.listAll →
      s.bucket (p.key ++ name) = none → p.key ++ name ≠ np.key ++ newname →
        (∃ key, s.bucket key ≠ none ∧ (np.key ++ newname ++ ['/']) <+: key ∧
          key ≠ np.key ++ newname ++ ['/']) →
            (Vfs.rename cfg io parent name newparent newname s).1 ≠ .ok ()

/-- No object outside the old directory is listed as if it were in it, and what the
copies lead to one has its bytes. -/
structure SparesOthers (cfg : VfsConfig) (bucket : Str → Option Stored) (oldPrefix newPrefix : Str) :
    Prop where
  notListed : ∀ x, bucket x ≠ none → ¬ oldPrefix <+: x → ¬ cfg.Takes oldPrefix x
  sameBytes : ∀ x n y, bucket x ≠ none → ¬ oldPrefix <+: x →
    Copies.Leads (movedKey oldPrefix newPrefix) (cfg.Lists bucket oldPrefix) n y x →
      bytesAt bucket y = bytesAt bucket x

/-- The rename leaves the others alone in whatever order it is told of its keys. -/
theorem keepsOthers_of_spares (hp : s.inodes.get parent = some p)
    (hnp : s.inodes.get newparent = some np)
    (h : SparesOthers cfg s.bucket (p.key ++ name ++ ['/']) (np.key ++ newname ++ ['/'])) :
    KeepsOthers cfg s parent name newparent newname p := by
  intro io _ hall hdir hok key o ho hkey
  obtain ⟨t, hmove, hbucket⟩ := rename_dir_ok hp hnp hdir hok
  obtain ⟨-, keys, hkeys, hbytes⟩ := moveTree_ok hmove
  obtain ⟨keys', hkeys', hmem⟩ := hall.listedKeys
  obtain rfl : keys' = keys := Except.ok.inj (congrArg Prod.fst (hkeys'.symm.trans hkeys))
  have hthere : s.bucket key ≠ none := by
    rw [ho]
    simp
  have hnot : key ∉ keys' := fun hin => h.notListed key hthere hkey ((hmem key).mp hin).2
  obtain ⟨n, y, hlead, hrun⟩ := Copies.run_eq
    (movedKey (p.key ++ name ++ ['/']) (np.key ++ newname ++ ['/'])) keys' (bytesAt s.bucket) key
  have hsame := h.sameBytes key n y hthere hkey (hlead.mono fun k hk => (hmem k).mp hk)
  rw [hbucket, hasBytes_iff, hbytes, movedBytes, if_neg hnot, hrun, hsame, bytesAt, ho]
  rfl

/-- An object that the rename should leave alone is lost when it is listed, and gets
the bytes of whatever leads to it in some order of the keys. -/
theorem spares_of_keepsOthers (hp : s.inodes.get parent = some p)
    (hnp : s.inodes.get newparent = some np) {objs : List StoredObject}
    (hobjs : Describes objs s.bucket) (hdir : s.bucket (p.key ++ name) = none)
    (h : KeepsOthers cfg s parent name newparent newname p) :
    SparesOthers cfg s.bucket (p.key ++ name ++ ['/']) (np.key ++ newname ++ ['/']) := by
  have hio := @faultless_answering cfg s.bucket _ objs hobjs (keepsNames_encodeAll objs)
      (p.key ++ name ++ ['/']) {}
  have hnotListed : ∀ x, s.bucket x ≠ none → ¬ (p.key ++ name ++ ['/']) <+: x →
      ¬ cfg.Takes (p.key ++ name ++ ['/']) x := by
    intro x hx hout htakes
    obtain ⟨o, ho⟩ := Option.ne_none_iff_exists'.mp hx
    obtain ⟨keys, hkeys, hmem⟩ := hio.listAll.listedKeys
    obtain ⟨u, hrun, hbytes⟩ := exists_rename_dir hp hnp hdir hio hkeys ⟨hx, htakes⟩ newname
    have hkept := h _ hio.list hio.listAll hdir (by rw [hrun]) x o ho hout
    rw [hrun, hasBytes_iff, hbytes, movedBytes, if_pos ((hmem x).mpr ⟨hx, htakes⟩)] at hkept
    cases hkept
  refine ⟨hnotListed, ?_⟩
  intro x n y hx hout hlead
  cases n with
  | zero => exact congrArg _ hlead.arrives
  | succ n =>
    obtain ⟨o, ho⟩ := Option.ne_none_iff_exists'.mp hx
    let keys := (objs.filter fun o => (cfg.treeUrl (p.key ++ name ++ ['/'])).isMatch o.key).map
      StoredObject.key
    have hmem : ∀ key, key ∈ keys ↔ cfg.Lists s.bucket (p.key ++ name ++ ['/']) key := by
      intro key
      rw [List.mem_map]
      constructor
      · rintro ⟨o, ho, rfl⟩
        obtain ⟨ho, hmatch⟩ := List.mem_filter.mp ho
        exact ⟨(hobjs.mem _).mp ⟨o, ho, rfl⟩, hmatch⟩
      · rintro ⟨hkey, htakes⟩
        obtain ⟨o, ho, rfl⟩ := (hobjs.mem key).mpr hkey
        exact ⟨o, List.mem_filter.mpr ⟨ho, htakes⟩, rfl⟩
    have hnodup : keys.Nodup := hobjs.nodup.sublist (List.filter_sublist.map _)
    have hnot : x ∉ keys := fun hin => hnotListed x hx hout ((hmem x).mp hin).2
    -- all keys are below the old directory, so no two of them go to the same place
    have hinj : ∀ k ∈ keys, ∀ k' ∈ keys,
        movedKey (p.key ++ name ++ ['/']) (np.key ++ newname ++ ['/']) k =
          movedKey (p.key ++ name ++ ['/']) (np.key ++ newname ++ ['/']) k' → k = k' := by
      intro k hk k' hk' heq
      have hbelow : ∀ k ∈ keys, (p.key ++ name ++ ['/']) <+: k := by
        intro k hk
        by_contra hnot
        exact hnotListed k ((hmem k).mp hk).1 hnot ((hmem k).mp hk).2
      obtain ⟨t, rfl⟩ := hbelow k hk
      obtain ⟨t', rfl⟩ := hbelow k' hk'
      rw [movedKey_append, movedKey_append] at heq
      rw [List.append_cancel_left heq]
    obtain ⟨order, hperm, hrun⟩ := (hlead.mono fun k hk => (hmem k).mpr hk).exists_perm hnot hnodup
      hinj (bytesAt s.bucket)
    obtain ⟨listAll, hall, hkeys⟩ := exists_tree_listing hobjs hperm
    have hin : ∀ key ∈ order, key ∈ keys := fun key hkey => hperm.mem_iff.mp hkey
    have hstart : cfg.Lists s.bucket (p.key ++ name ++ ['/']) y := hlead.copied 0 (Nat.succ_pos n)
    have hio' : Faultless cfg s.bucket (p.key ++ name ++ ['/'])
        { answering cfg percentEncodeAll objs (p.key ++ name ++ ['/']) {} with listAll := listAll } :=
      ⟨rfl, rfl, fun _ => rfl, fun _ => rfl, hio.list, hall⟩
    obtain ⟨u, hrename, hbytes⟩ := exists_rename_dir hp hnp hdir hio' (hkeys s) hstart newname
    have hkept := h _ hio'.list hall hdir (by rw [hrename]) x o ho hout
    rw [hrename, hasBytes_iff, hbytes, movedBytes, if_neg fun hx => hnot (hin x hx), hrun] at hkept
    rw [hkept, bytesAt, ho]
    rfl

/-- The rename refuses a destination that is not empty only when it has nothing to
move. -/
theorem refusesNonEmpty_iff (hp : s.inodes.get parent = some p)
    (hnp : s.inodes.get newparent = some np) {objs : List StoredObject}
    (hobjs : Describes objs s.bucket) :
    RefusesNonEmpty cfg s parent name newparent newname p np ↔
      s.bucket (p.key ++ name) ≠ none ∨ p.key ++ name = np.key ++ newname ∨
        (∀ key, ¬ cfg.Lists s.bucket (p.key ++ name ++ ['/']) key) ∨
          ∀ key, s.bucket key ≠ none → (np.key ++ newname ++ ['/']) <+: key →
            key = np.key ++ newname ++ ['/'] := by
  constructor
  · intro h
    by_contra hnot
    obtain ⟨hdir, hne, hthere, hempty⟩ : s.bucket (p.key ++ name) = none ∧
        p.key ++ name ≠ np.key ++ newname ∧
        (∃ key, cfg.Lists s.bucket (p.key ++ name ++ ['/']) key) ∧
        ∃ key, s.bucket key ≠ none ∧ (np.key ++ newname ++ ['/']) <+: key ∧
          key ≠ np.key ++ newname ++ ['/'] := by
      simpa only [not_or, not_not, not_forall, exists_prop] using hnot
    obtain ⟨key, hkey⟩ := hthere
    have hio := @faultless_answering cfg s.bucket _ objs hobjs (keepsNames_encodeAll objs)
      (p.key ++ name ++ ['/']) {}
    obtain ⟨keys, hkeys, -⟩ := hio.listAll.listedKeys
    obtain ⟨u, hrun, -⟩ := exists_rename_dir hp hnp hdir hio hkeys hkey newname
    exact h _ hio.list hio.listAll hdir hne hempty (by rw [hrun])
  · intro h io hlist hall hdir hne ⟨key, hkey, hbelow, hother⟩ hok
    rcases h with hfile | hsame | hnone | hempty
    · exact hfile hdir
    · exact hne hsame
    · -- nothing is listed, so there is no directory to rename
      obtain ⟨t, hmove, -⟩ := rename_dir_ok hp hnp hdir hok
      obtain ⟨b, hexists, hb⟩ := hlist.prefixExists
      have htrue : b = true := Except.ok.inj
        (congrArg Prod.fst (hexists.symm.trans (moveTree_ok hmove).1))
      obtain ⟨k, hk⟩ := hb.mp htrue
      exact hnone k hk
    · exact hother (hempty key hkey hbelow)

end Rename

/-- **When a directory rename leaves the other objects alone.** A rename that
returns keeps every object outside the old directory exactly when the listing of the
old directory has none of them in it and no copy brings other bytes to one; and a
destination that is not empty is refused exactly when there is nothing to rename. -/
theorem directory_rename_keeps_others_iff (cfg : VfsConfig) (s : Vfs) (parent newparent : Nat)
    (name newname : Str) (p np : Node) (objs : List StoredObject)
    (hp : s.inodes.get parent = some p) (hnp : s.inodes.get newparent = some np)
    (hobjs : Describes objs s.bucket) :
    (KeepsOthers cfg s parent name newparent newname p ↔
      s.bucket (p.key ++ name) ≠ none ∨
        SparesOthers cfg s.bucket (p.key ++ name ++ ['/']) (np.key ++ newname ++ ['/'])) ∧
    (RefusesNonEmpty cfg s parent name newparent newname p np ↔
      s.bucket (p.key ++ name) ≠ none ∨ p.key ++ name = np.key ++ newname ∨
        (∀ key, ¬ cfg.Lists s.bucket (p.key ++ name ++ ['/']) key) ∨
          ∀ key, s.bucket key ≠ none → (np.key ++ newname ++ ['/']) <+: key →
            key = np.key ++ newname ++ ['/']) := by
  refine ⟨⟨?_, ?_⟩, refusesNonEmpty_iff hp hnp hobjs⟩
  · intro h
    by_cases hdir : s.bucket (p.key ++ name) = none
    · exact Or.inr (spares_of_keepsOthers hp hnp hobjs hdir h)
    · exact Or.inl hdir
  · rintro (hfile | hspares)
    · intro io _ _ hdir
      exact absurd hdir hfile
    · exact keepsOthers_of_spares hp hnp hspares

/-! ## Concrete renames -/

namespace Clobber

/-- Two directories with a file of the same name, and one whose name looks like a
wildcard. -/
def objects : List (Str × List UInt8) :=
  [("d/x".toList, [1]), ("e/x".toList, [2]), ("f*/x".toList, [3]), ("foo/".toList, [])]

def state : Vfs := .new [] (bucketOf objects)

def root : Node := ⟨[], .dir, rootInode⟩

theorem describes : Describes (objectsOf objects) state.bucket := describes_objectsOf (by decide)

theorem keepsNames : KeepsNames urlEncode (objectsOf objects) := keepsNames_urlEncode (by decide)

theorem root_eq : state.inodes.get rootInode = some root := by decide

/-- What the server answers to the rename of the directory. -/
def io (oldPrefix : String) : Io where
  list := onePage urlEncode (objectsOf objects) (VfsConfig.sample.url oldPrefix.toList)
  listAll := onePage urlEncode (objectsOf objects) (VfsConfig.sample.treeUrl oldPrefix.toList)

end Clobber

open Clobber in
/-- Renaming `d` to `g` keeps every other object. -/
theorem directory_rename_keeps_others_apart :
    KeepsOthers .sample state rootInode "d".toList rootInode "g".toList root := by
  refine (directory_rename_keeps_others_iff .sample state rootInode rootInode "d".toList "g".toList
    root root (objectsOf objects) root_eq root_eq describes).1.mpr (Or.inr ⟨?_, ?_⟩)
  · intro x _ hout htakes
    exact hout ((takes_literal (by decide) x).mp htakes)
  · intro x n y hx _ hlead
    cases n with
    | zero => exact congrArg _ hlead.arrives
    | succ n =>
      -- a copy would have led to a key below `g/`
      have hnone : ∀ o ∈ objectsOf objects, ¬ "g/".toList <+: o.key := by decide
      obtain ⟨o, ho, rfl⟩ := (describes.mem x).mpr hx
      have harrives := hlead.arrives
      rw [Function.iterate_succ_apply'] at harrives
      exact absurd ⟨_, harrives⟩ (hnone o ho)

open Clobber in
/-- Renaming `d` to `e` overwrites the file there, and renaming `f*` deletes the
directory `foo`. -/
theorem directory_rename_clobbers :
    ¬ KeepsOthers .sample state rootInode "d".toList rootInode "e".toList root ∧
      ¬ RefusesNonEmpty .sample state rootInode "d".toList rootInode "e".toList root root ∧
        ¬ KeepsOthers .sample state rootInode "f*".toList rootInode "g".toList root := by
  refine ⟨?_, ?_, ?_⟩
  · intro h
    have hkept := hasBytes_iff.mp (h (io "d/") (honestList_onePage describes keepsNames rfl)
      (honestList_onePage describes keepsNames rfl) (by decide) (by decide +kernel) "e/x".toList ⟨[2], some 0⟩
      (by decide) (by decide))
    have hrun : bytesAt (Vfs.rename .sample (io "d/") rootInode "d".toList rootInode "e".toList
        state).2.bucket "e/x".toList = some [1] := by
      decide +kernel
    rw [hrun] at hkept
    exact absurd (Option.some.inj hkept) (by decide)
  · intro h
    exact h (io "d/") (honestList_onePage describes keepsNames rfl) (honestList_onePage describes keepsNames rfl)
      (by decide) (by decide) ⟨"e/x".toList, by decide, by decide, by decide⟩ (by decide +kernel)
  · intro h
    have hkept := hasBytes_iff.mp (h (io "f*/") (honestList_onePage describes keepsNames rfl)
      (honestList_onePage describes keepsNames rfl) (by decide) (by decide +kernel) "foo/".toList ⟨[], some 0⟩
      (by decide) (by decide))
    have hrun : bytesAt (Vfs.rename .sample (io "f*/") rootInode "f*".toList rootInode "g".toList
        state).2.bucket "foo/".toList = none := by
      decide +kernel
    rw [hrun] at hkept
    cases hkept

end Rs5cmd
