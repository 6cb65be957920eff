import Rs5cmd.Mount.Image
import Rs5cmd.Mount.Race

/-!
# Directory listings in the cache

A mutation invalidates the directories it is in when it has made its changes, but a
`readdir` that asked for its listing before that may store it afterwards. The listing
that is cached when both have returned shows the directory as it then is, provided
that the mutation had made its changes when the listing was answered or had an
invalidation of the directory ahead of it when the listing was stored.
-/

namespace Rs5cmd

open Cmd Thread

/-! ## What `readdir` makes of a listing -/

namespace Vfs

variable {cfg : VfsConfig} {dir : Nat} {n : Node} {s : Vfs} {acc : Listing}

def Listing.view (acc : Listing) : List (Str × NodeKind) := acc.entries.map fun e => (e.name, e.kind)

/-- The names seen are those of the entries. -/
def Listing.Seen (acc : Listing) : Prop := ∀ x, x ∈ acc.seen ↔ x ∈ acc.view.map Prod.fst

theorem Listing.seen_empty : Listing.Seen {} := by
  intro x
  simp [Listing.view]

theorem Listing.view_add (name : Str) (ino : Nat) (kind : NodeKind) (attrs : List Attr) :
    Listing.view ⟨acc.entries ++ [⟨ino, name, kind⟩], attrs, name :: acc.seen⟩ =
      acc.view ++ [(name, kind)] := by
  simp [Listing.view]

theorem Listing.Seen.add (h : acc.Seen) (name : Str) (ino : Nat) (kind : NodeKind)
    (attrs : List Attr) :
    Listing.Seen ⟨acc.entries ++ [⟨ino, name, kind⟩], attrs, name :: acc.seen⟩ := by
  intro x
  rw [Listing.view_add, List.map_append, List.mem_append, ← h x, List.mem_cons]
  simp [or_comm]

/-- One object of the loop, in terms of names and kinds. -/
theorem readdirStep_shown (h : acc.Seen) (obj : Object) :
    Yields (readdirStep cfg dir n acc obj) fun r =>
      match r with
      | some acc' => acc'.Seen ∧ shownStep n.key acc.view obj = some acc'.view
      | none => shownStep n.key acc.view obj = none := by
  -- one more name
  have hadd : ∀ (m : VfsM Nat) (name : Str) (kind : NodeKind) (attrs : Nat → List Attr),
      shownStep n.key acc.view obj = some (acc.view ++ [(name, kind)]) → Yields (do
        let cino ← m
        return some (⟨acc.entries ++ [⟨cino, name, kind⟩], attrs cino, name :: acc.seen⟩ : Listing))
        fun r => match r with
          | some acc' => acc'.Seen ∧ shownStep n.key acc.view obj = some acc'.view
          | none => shownStep n.key acc.view obj = none := by
    intro m name kind attrs hshown
    refine Yields.bind (yields_true m) fun cino _ => yields_pure ⟨h.add name cino kind _, ?_⟩
    rw [Listing.view_add]
    exact hshown
  have hiff := fun x => (h x).symm
  unfold readdirStep
  cases herr : obj.err with
  | some e =>
    dsimp only
    split
    · exact yields_pure (by simp only [shownStep, herr])
    · exact yields_fail _ _
  | none =>
    cases hurl : obj.url with
    | none => exact yields_pure ⟨h, by simp only [shownStep, herr, hurl]⟩
    | some u =>
      dsimp only
      split
      · rename_i hrel
        exact yields_pure ⟨h, by simp only [shownStep, herr, hurl, hrel, if_true]⟩
      · rename_i hrel
        cases htyp : obj.typ with
        | dir =>
          dsimp only
          split
          · rename_i hnot
            refine yields_pure ⟨h, ?_⟩
            simp only [shownStep, herr, hurl, hrel, if_false, htyp, hiff, hnot, if_true]
          · rename_i hnot
            refine hadd _ _ _ (fun cino => acc.attrs ++ [cfg.dirAttr cino]) ?_
            simp only [shownStep, herr, hurl, hrel, if_false, htyp, hiff, hnot]
        | file =>
          dsimp only
          split
          · rename_i hnot
            refine yields_pure ⟨h, ?_⟩
            simp only [shownStep, herr, hurl, hrel, if_false, htyp, hiff, hnot, if_true]
          · rename_i hnot
            refine hadd _ _ _ (fun cino => acc.attrs ++ [cfg.fileAttr cino obj]) ?_
            simp only [shownStep, herr, hurl, hrel, if_false, htyp, hiff, hnot]
        | _ => exact yields_pure ⟨h, by simp only [shownStep, herr, hurl, hrel, if_false, htyp]⟩

/-- The files that are open for writing are added unless they are listed. -/
theorem mem_mergeDirty (h : acc.Seen) (children : List (Nat × Str)) (x : Str) (kind : NodeKind) :
    (∃ e ∈ mergeDirty acc children, e.name = x ∧ e.kind = kind) ↔
      (x, kind) ∈ acc.view ∨ kind = .file ∧ (∃ ino, (ino, x) ∈ children) ∧
        x ∉ acc.view.map Prod.fst := by
  induction children generalizing acc with
  | nil =>
    simp only [mergeDirty, Listing.view, List.mem_map, Prod.mk.injEq, List.not_mem_nil, exists_false,
      false_and, and_false, or_false]
  | cons c children ih =>
    obtain ⟨ino, name⟩ := c
    rw [mergeDirty]
    have hmem : (∃ i, (i, x) ∈ (ino, name) :: children) ↔ x = name ∨ ∃ i, (i, x) ∈ children := by
      simp only [List.mem_cons, Prod.mk.injEq]
      constructor
      · rintro ⟨i, ⟨-, rfl⟩ | hi⟩
        · exact Or.inl rfl
        · exact Or.inr ⟨i, hi⟩
      · rintro (rfl | ⟨i, hi⟩)
        · exact ⟨ino, Or.inl ⟨rfl, rfl⟩⟩
        · exact ⟨i, Or.inr hi⟩
    split
    · rename_i hseen
      have hin : name ∈ acc.view.map Prod.fst := (h name).mp hseen
      rw [ih h, hmem]
      constructor
      · rintro (hv | ⟨hk, hc, hx⟩)
        · exact Or.inl hv
        · exact Or.inr ⟨hk, Or.inr hc, hx⟩
      · rintro (hv | ⟨hk, rfl | hc, hx⟩)
        · exact Or.inl hv
        · exact absurd hin hx
        · exact Or.inr ⟨hk, hc, hx⟩
    · rename_i hseen
      have hout : name ∉ acc.view.map Prod.fst := fun hin => hseen ((h name).mpr hin)
      have hview := @Listing.view_add acc name ino .file acc.attrs
      rw [ih (h.add name ino .file acc.attrs), hview, hmem]
      simp only [List.mem_append, List.mem_singleton, Prod.mk.injEq, List.map_append, List.map_cons,
        List.map_nil]
      constructor
      · rintro ((hv | ⟨rfl, rfl⟩) | ⟨hk, hc, hx⟩)
        · exact Or.inl hv
        · exact Or.inr ⟨rfl, Or.inl rfl, hout⟩
        · exact Or.inr ⟨hk, Or.inr hc, fun hin => hx (Or.inl hin)⟩
      · rintro (hv | ⟨rfl, rfl | hc, hx⟩)
        · exact Or.inl (Or.inl hv)
        · exact Or.inl (Or.inr ⟨rfl, rfl⟩)
        · by_cases hname : x = name
          · exact Or.inl (Or.inr ⟨hname, rfl⟩)
          · exact Or.inr ⟨rfl, hc, fun hin => hin.elim hx hname⟩

/-- Which files are open for writing does not depend on the order of the handles. -/
theorem mem_dirtyChildren_order (io io' : Io) (c : Nat × Str) :
    c ∈ s.dirtyChildren io dir ↔ c ∈ s.dirtyChildren io' dir := by
  unfold dirtyChildren
  cases s.inodes.get dir with
  | none => exact Iff.rfl
  | some p => simp only [List.mem_filterMap, Maps.mem_inOrder_toList]

theorem showsKey_merge {lister : Lister} (h : acc.Seen) {key : Str}
    (hview : acc.view = shown key (lister s.bucket key) []) (io : Io) :
    s.ShowsKey lister dir key (mergeDirty acc (s.dirtyChildren io dir)) := by
  intro x kind
  rw [mem_mergeDirty h, hview]
  have horder : (∃ ino, (ino, x) ∈ s.dirtyChildren io dir) ↔ s.Pending dir x :=
    exists_congr fun ino => mem_dirtyChildren_order io {} (ino, x)
  rw [horder]

end Vfs

/-! ## What a mutation does to the cache -/

/-- No listing is cached that was not before. -/
def Drops (s s' : Vfs) : Prop := ∀ (i : Nat) e, s'.dirCache[i]? = some e → s.dirCache[i]? = some e

section Steps

variable {cfg : VfsConfig} {io : Io} {s : Vfs} {dir : Nat}

theorem drops_refl (s : Vfs) : Drops s s := fun _ _ h => h

theorem drops_bucketFree : BucketFree (Drops s) := fun _ _ h => h

theorem within_drops {α : Type} {m : VfsM α} (h : ∀ s, Keeps (Drops s) m) : (atom m).Within Drops :=
  within_atom fun s => (h s).snd (drops_refl s)

theorem within_modify {f : Vfs → Vfs} (h : ∀ s, (f s).dirCache = s.dirCache) :
    (atom (modify f : VfsM Unit)).Within Drops :=
  within_atom fun s i _ he => (congrArg (fun d => d[i]?) (h s)).symm.trans he

theorem within_value {α : Type} (r : Except MountError α) : (Vfs.value r).Within Drops := trivial

theorem within_node (ino : Nat) : (atom (Vfs.node ino)).Within Drops :=
  within_drops fun _ => keeps_node ino

theorem within_inodeOf (key : Str) : (atom (Vfs.inodeOf key)).Within Drops :=
  within_atom fun s => drops_refl s

theorem within_invalidateDir (ino : Nat) : (atom (Vfs.invalidateDir ino)).Within Drops :=
  within_atom fun _ _ _ h => mem_dirCache_erase h

theorem within_allocFh : (atom Vfs.allocFh).Within Drops := within_atom fun s => drops_refl s

theorem within_intern (key : Str) (kind : NodeKind) (parent : Nat) :
    (atom (Vfs.intern key kind parent)).Within Drops :=
  within_atom fun s => drops_refl s

theorem within_delete (fault : RequestFault) (u : Url) : (atom (Vfs.delete fault u)).Within Drops :=
  within_drops fun _ => keeps_delete drops_bucketFree fault u

theorem within_stat (fault : Option StorageError) (u : Url) :
    (atom (attempt (Vfs.stat fault u))).Within Drops :=
  within_drops fun _ => (keeps_stat fault u).attempt

theorem within_prefixExists (objs : List Object) (key : Str) :
    (atom (Vfs.prefixExists cfg objs key)).Within Drops :=
  within_drops fun _ => keeps_prefixExists objs key

theorem unlink_within (parent : Nat) (name : Str) :
    (Vfs.unlinkSteps cfg io parent name).Within Drops := by
  refine Within.bind (within_node parent) fun p => Within.bind (within_value _) fun url => ?_
  refine Within.bind (within_delete _ url) fun _ => Within.bind ?_ fun _ => within_invalidateDir parent
  refine Within.bind (within_inodeOf _) fun ino => ?_
  cases ino with
  | none => exact within_pure ()
  | some ino =>
    refine Within.bind (within_modify fun _ => rfl) fun _ => ?_
    exact Within.bind (within_modify fun _ => rfl) fun _ => within_modify fun _ => rfl

theorem putEmptyObject_within (key : Str) : (Vfs.putEmptyObjectSteps cfg io key).Within Drops := by
  refine Within.bind (within_value _) fun url => Within.bind within_allocFh fun id => ?_
  cases io.openCache with
  | some e => exact within_value _
  | none =>
    refine Within.bind (within_modify fun _ => rfl) fun _ => ?_
    refine Within.bind (within_drops fun _ => (keeps_upload drops_bucketFree _ _).attempt) fun res => ?_
    exact Within.bind (within_modify fun _ => rfl) fun _ => within_value res

theorem mkdir_within (parent : Nat) (name : Str) :
    (Vfs.mkdirSteps cfg io parent name).Within Drops := by
  refine Within.bind (within_node parent) fun p => Within.bind (within_value _) fun url => ?_
  refine Within.bind (within_stat _ url) fun r => ?_
  cases r with
  | ok obj => exact within_value _
  | error e =>
    dsimp only
    split
    · exact within_value _
    · refine Within.bind (within_prefixExists _ _) fun b => ?_
      cases b with
      | true => exact within_value _
      | false =>
        refine Within.bind (putEmptyObject_within _) fun _ => ?_
        refine Within.bind (within_intern _ _ _) fun ino => ?_
        exact Within.bind (within_invalidateDir parent) fun _ => within_pure _

theorem rmdir_within (parent : Nat) (name : Str) :
    (Vfs.rmdirSteps cfg io parent name).Within Drops := by
  refine Within.bind (within_node parent) fun p => ?_
  refine Within.bind (within_drops fun _ => keeps_dirIsEmpty _ _) fun b => ?_
  cases b with
  | false => exact within_value _
  | true =>
    refine Within.bind (within_value _) fun url => Within.bind (within_delete _ url) fun _ => ?_
    refine Within.bind ?_ fun _ => within_invalidateDir parent
    refine Within.bind (within_inodeOf _) fun ino => ?_
    cases ino with
    | none => exact within_pure ()
    | some ino => exact Within.bind (within_invalidateDir ino) fun _ => within_modify fun _ => rfl

theorem create_within (parent : Nat) (name : Str) :
    (Vfs.createSteps cfg io parent name).Within Drops := by
  refine Within.bind (within_node parent) fun p => ?_
  split
  · exact within_value _
  · refine Within.bind (within_intern _ _ _) fun ino => Within.bind within_allocFh fun fh => ?_
    refine Within.bind (within_atom fun s => ?_) fun _ => Within.bind (within_value _) fun dst => ?_
    · cases hio : io.openCache with
      | none =>
        rw [openCacheFile_ok hio]
        exact drops_refl s
      | some e =>
        rw [openCacheFile_error hio]
        exact drops_refl s
    · refine Within.bind (within_modify fun _ => rfl) fun _ => ?_
      refine Within.bind (within_modify fun _ => rfl) fun _ => ?_
      refine Within.bind (within_modify fun _ => rfl) fun _ => ?_
      exact Within.bind (within_invalidateDir parent) fun _ => within_pure _

theorem release_within (fh : Nat) : (Vfs.releaseSteps io fh).Within Drops := by
  refine Within.bind (within_atom fun s => ?_) fun o => ?_
  · unfold Vfs.takeHandle
    split
    · exact drops_refl s
    · exact drops_refl s
  · cases o with
    | none => exact within_pure ()
    | some of =>
      dsimp only
      cases of.kind with
      | read src size => exact within_pure ()
      | write w =>
        refine Within.bind (within_atom fun s => ?_) fun r => ?_
        · rcases flushWriter_cases io w s with ⟨-, hrun⟩ | ⟨-, b, -, hrun⟩ | ⟨-, e, u, hrun, hu⟩
          · rw [attempt_run, hrun]
            exact drops_refl s
          · rw [attempt_run, hrun]
            exact drops_refl s
          · rw [attempt_run, hrun]
            rcases hu with rfl | ⟨b, -, rfl⟩
            · exact drops_refl _
            · exact drops_refl s
        · cases r with
          | error e => exact within_value _
          | ok w' =>
            refine Within.bind (within_modify fun _ => rfl) fun _ => ?_
            refine Within.bind (within_modify fun _ => rfl) fun _ => ?_
            refine Within.bind (within_atom fun s => drops_refl s) fun parent => ?_
            exact Within.bind (within_invalidateDir parent) fun _ => within_modify fun _ => rfl

theorem rename_within (parent : Nat) (name : Str) (newparent : Nat) (newname : Str) :
    (Vfs.renameSteps cfg io parent name newparent newname).Within Drops := by
  refine Within.bind (within_node parent) fun p => Within.bind (within_node newparent) fun np => ?_
  refine Within.bind (within_value _) fun url => Within.bind (within_stat _ url) fun r => ?_
  have hcopy : ∀ fault src dst, (atom (Vfs.copy fault io src dst)).Within Drops :=
    fun fault src dst => within_drops fun _ => keeps_copy drops_bucketFree fault src dst
  have hlast : (do
      atom (Vfs.invalidateDir parent)
      atom (Vfs.invalidateDir newparent) : VfsThread Unit).Within Drops :=
    Within.bind (within_invalidateDir parent) fun _ => within_invalidateDir newparent
  cases r with
  | ok obj =>
    refine Within.bind (within_value _) fun src => Within.bind (within_value _) fun dst => ?_
    refine Within.bind (hcopy _ _ _) fun _ => Within.bind (within_delete _ _) fun _ => ?_
    refine Within.bind (Within.bind ?_ fun _ => ?_) fun _ => hlast
    · refine Within.bind (within_inodeOf _) fun d => ?_
      cases d with
      | none => exact within_pure ()
      | some d => exact Within.bind (within_modify fun _ => rfl) fun _ => within_modify fun _ => rfl
    · refine Within.bind (within_inodeOf _) fun ino => ?_
      cases ino with
      | none => exact within_pure ()
      | some ino =>
        refine Within.bind (within_modify fun _ => rfl) fun _ => ?_
        refine Within.bind (within_modify fun _ => rfl) fun _ => within_drops fun s => ?_
        exact keeps_repoint (fun _ _ _ _ _ _ h => h) ino _
  | error e =>
    dsimp only
    split
    · exact within_value _
    · refine Within.bind (within_prefixExists _ _) fun b => ?_
      cases b with
      | false => exact within_value _
      | true =>
        refine Within.bind (within_drops fun _ => keeps_listedKeys _) fun keys => ?_
        refine Within.bind (within_forEach (fun e => ?_) _) fun _ => ?_
        · refine Within.bind (within_value _) fun _ => Within.bind (within_value _) fun _ => ?_
          exact hcopy _ _ _
        · refine Within.bind (within_forEach (fun e => ?_) _) fun _ => ?_
          · exact Within.bind (within_value _) fun _ => within_delete _ _
          · refine Within.bind (within_atom fun s => drops_refl s) fun ids => ?_
            refine Within.bind (within_forEach (fun ino => ?_) ids) fun _ => hlast
            exact within_modify fun _ => rfl

/-- A mutation stores no listings. -/
theorem Mutation.within (m : Mutation) : (m.thread cfg).Within Drops := by
  cases m with
  | create io io' parent name =>
    exact Within.bind (create_within parent name) fun r => release_within r.2.1
  | unlink io parent name => exact unlink_within parent name
  | mkdir io parent name => exact Within.bind (mkdir_within parent name) fun _ => within_pure ()
  | rmdir io parent name => exact rmdir_within parent name
  | rename io parent name newparent newname => exact rename_within parent name newparent newname

theorem passes_invalidateDir (dir : Nat) : (atom (Vfs.invalidateDir dir)).Passes (NoListing dir) :=
  passes_atom fun _ => Std.ExtTreeMap.getElem?_erase_self

theorem passes_value_error {α : Type} (e : MountError) :
    (Vfs.value (.error e) : VfsThread α).Passes (NoListing dir) :=
  trivial

/-- A mutation that succeeds has invalidated the directories it is in. -/
theorem Mutation.passes {m : Mutation} (h : dir ∈ m.dirs) :
    (m.thread cfg).Passes (NoListing dir) := by
  cases m with
  | create io io' parent name =>
    obtain rfl := List.mem_singleton.mp h
    refine Passes.bind_left (Passes.bind_right fun p => ?_)
    split
    · exact passes_value_error _
    · refine Passes.bind_right fun ino => Passes.bind_right fun fh => Passes.bind_right fun _ => ?_
      refine Passes.bind_right fun dst => Passes.bind_right fun _ => Passes.bind_right fun _ => ?_
      exact Passes.bind_right fun _ => Passes.bind_left (passes_invalidateDir dir)
  | unlink io parent name =>
    obtain rfl := List.mem_singleton.mp h
    refine Passes.bind_right fun p => Passes.bind_right fun url => Passes.bind_right fun _ => ?_
    exact Passes.bind_right fun _ => passes_invalidateDir dir
  | mkdir io parent name =>
    obtain rfl := List.mem_singleton.mp h
    refine Passes.bind_left (Passes.bind_right fun p => Passes.bind_right fun url => ?_)
    refine Passes.bind_right fun r => ?_
    cases r with
    | ok obj => exact passes_value_error _
    | error e =>
      dsimp only
      split
      · exact passes_value_error _
      · refine Passes.bind_right fun b => ?_
        cases b with
        | true => exact passes_value_error _
        | false =>
          refine Passes.bind_right fun _ => Passes.bind_right fun ino => ?_
          exact Passes.bind_left (passes_invalidateDir dir)
  | rmdir io parent name =>
    obtain rfl := List.mem_singleton.mp h
    refine Passes.bind_right fun p => Passes.bind_right fun b => ?_
    cases b with
    | false => exact passes_value_error _
    | true =>
      refine Passes.bind_right fun url => Passes.bind_right fun _ => Passes.bind_right fun _ => ?_
      exact passes_invalidateDir dir
  | rename io parent name newparent newname =>
    have hlast : (do
        atom (Vfs.invalidateDir parent)
        atom (Vfs.invalidateDir newparent) : VfsThread Unit).Passes (NoListing dir) := by
      rcases List.mem_pair.mp h with rfl | rfl
      · exact Passes.bind_left (passes_invalidateDir dir)
      · exact Passes.bind_right fun _ => passes_invalidateDir dir
    refine Passes.bind_right fun p => Passes.bind_right fun np => Passes.bind_right fun url => ?_
    refine Passes.bind_right fun r => ?_
    cases r with
    | ok obj =>
      refine Passes.bind_right fun src => Passes.bind_right fun dst => Passes.bind_right fun _ => ?_
      exact Passes.bind_right fun _ => Passes.bind_right fun _ => hlast
    | error e =>
      dsimp only
      split
      · exact passes_value_error _
      · refine Passes.bind_right fun b => ?_
        cases b with
        | false => exact passes_value_error _
        | true =>
          refine Passes.bind_right fun keys => Passes.bind_right fun _ => Passes.bind_right fun _ => ?_
          exact Passes.bind_right fun ids => Passes.bind_right fun _ => hlast

end Steps

/-! ## Both together -/

namespace Race

variable {cfg : VfsConfig} {lister : Lister} {dir : Nat} {r r' : Race} {s : Vfs} {key : Str}
  {entries : List DirEntry}

theorem showsKey_congr (hshown : shown key (lister s.bucket key) [] = shown key (lister r.vfs.bucket key) [])
    (hpending : ∀ x, s.Pending dir x ↔ r.vfs.Pending dir x)
    (h : r.vfs.ShowsKey lister dir key entries) : s.ShowsKey lister dir key entries := by
  intro x kind
  rw [hshown, hpending x]
  exact h x kind

theorem shown_of_not_misses (hkey : r.key = some key) (h : ¬ r.Misses lister dir s) :
    shown key (lister s.bucket key) [] = shown key (lister r.vfs.bucket key) [] := by
  by_contra hne
  exact h ⟨key, hkey, Or.inl hne⟩

theorem showsKey_of_not_misses (hkey : r.key = some key) (h : ¬ r.Misses lister dir s)
    (hmerged : r.reader.Merged) (hs : r.vfs.ShowsKey lister dir key entries) :
    s.ShowsKey lister dir key entries := by
  refine showsKey_congr (shown_of_not_misses hkey h) (fun x => ?_) hs
  by_contra hne
  exact h ⟨key, hkey, Or.inr ⟨hmerged, x, hne⟩⟩

/-- What the reader has made of the listing, unless it misses a change. -/
def Phase (lister : Lister) (dir : Nat) (r : Race) : Prop :=
  match r.reader with
  | .start | .list _ | .done _ => True
  | .collect n objs acc =>
    acc.Seen ∧ r.key = some n.key ∧
      (¬ r.late → shown n.key objs acc.view = shown n.key (lister r.vfs.bucket n.key) [])
  | .merge n acc =>
    acc.Seen ∧ r.key = some n.key ∧
      (¬ r.late → acc.view = shown n.key (lister r.vfs.bucket n.key) [])
  | .store n _ entries =>
    r.key = some n.key ∧ (¬ r.late → r.vfs.ShowsKey lister dir n.key entries)

/-- The listing that is cached is going to be invalidated, misses a change, or shows the
directory. -/
def Slot (lister : Lister) (dir : Nat) (r : Race) : Prop :=
  r.writer.Passes (NoListing dir) ∨ NoListing dir r.vfs ∨ r.late ∨
    (∃ res, r.reader = .done res) ∧ ∃ k, r.key = some k ∧
      ∀ entries time, r.vfs.dirCache[dir]? = some (entries, time) →
        r.vfs.ShowsKey lister dir k entries

structure Inv (lister : Lister) (dir : Nat) (r : Race) : Prop where
  drops : r.writer.Within Drops
  phase : r.Phase lister dir
  slot : r.Slot lister dir

/-! ### A step of the mutation -/

theorem writer_phase {change : Vfs → Vfs} {next : Vfs → VfsThread Unit}
    (h : r.Phase lister dir) :
    Phase lister dir { r with
      vfs := change r.vfs
      writer := next r.vfs
      late := (r.late ∨ r.Misses lister dir (change r.vfs)) ∧
        ¬ ((∃ res, r.reader = .done res) ∧ ∀ s, NoListing dir (change s)) } := by
  -- before the reader is done, nothing makes up for a missed change
  have hnot : ∀ {p q : Prop}, (∀ res, r.reader ≠ .done res) →
      ¬ ((r.late ∨ p) ∧ ¬ ((∃ res, r.reader = .done res) ∧ q)) → ¬ r.late ∧ ¬ p := by
    intro p q hdone hlate
    constructor
    · intro hl
      exact hlate ⟨Or.inl hl, fun hc => hdone _ hc.1.choose_spec⟩
    · intro hp
      exact hlate ⟨Or.inr hp, fun hc => hdone _ hc.1.choose_spec⟩
  unfold Phase at h ⊢
  dsimp only
  cases hreader : r.reader with
  | start => trivial
  | list n => trivial
  | done res => trivial
  | collect n objs acc =>
    rw [hreader] at h
    refine ⟨h.1, h.2.1, fun hlate => ?_⟩
    rw [← hreader] at hlate
    obtain ⟨hl, hm⟩ := hnot (by simp [hreader]) hlate
    rw [h.2.2 hl, shown_of_not_misses h.2.1 hm]
  | merge n acc =>
    rw [hreader] at h
    refine ⟨h.1, h.2.1, fun hlate => ?_⟩
    rw [← hreader] at hlate
    obtain ⟨hl, hm⟩ := hnot (by simp [hreader]) hlate
    rw [h.2.2 hl, shown_of_not_misses h.2.1 hm]
  | store n acc entries =>
    rw [hreader] at h
    refine ⟨h.1, fun hlate => ?_⟩
    rw [← hreader] at hlate
    obtain ⟨hl, hm⟩ := hnot (by simp [hreader]) hlate
    exact showsKey_of_not_misses h.1 hm (by simp [hreader, Reader.Merged]) (h.2 hl)

theorem noListing_of_drops {s s' : Vfs} (h : Drops s s') (hs : NoListing dir s) : NoListing dir s' := by
  unfold NoListing
  cases hd : s'.dirCache[dir]? with
  | none => rfl
  | some e =>
    have he := h dir e hd
    rw [hs] at he
    cases he

theorem writer_slot {change : Vfs → Vfs} {next : Vfs → VfsThread Unit}
    (hwriter : r.writer = .act change next) (hdrops : r.writer.Within Drops)
    (h : r.Slot lister dir) :
    Slot lister dir { r with
      vfs := change r.vfs
      writer := next r.vfs
      late := (r.late ∨ r.Misses lister dir (change r.vfs)) ∧
        ¬ ((∃ res, r.reader = .done res) ∧ ∀ s, NoListing dir (change s)) } := by
  rw [hwriter] at hdrops
  have hdrop : Drops r.vfs (change r.vfs) := hdrops.1 r.vfs
  unfold Slot at h ⊢
  dsimp only
  by_cases hclear : ∀ s, NoListing dir (change s)
  · exact Or.inr (Or.inl (hclear r.vfs))
  · rcases h with hpasses | hnone | hlate | ⟨hdone, k, hkey, hshows⟩
    · rw [hwriter] at hpasses
      exact Or.inl ((hpasses.resolve_left hclear) r.vfs)
    · exact Or.inr (Or.inl (noListing_of_drops hdrop hnone))
    · exact Or.inr (Or.inr (Or.inl ⟨Or.inl hlate, fun hc => hclear hc.2⟩))
    · by_cases hmiss : r.Misses lister dir (change r.vfs)
      · exact Or.inr (Or.inr (Or.inl ⟨Or.inr hmiss, fun hc => hclear hc.2⟩))
      · refine Or.inr (Or.inr (Or.inr ⟨hdone, k, hkey, fun entries time hslot => ?_⟩))
        have hmerged : r.reader.Merged := by
          obtain ⟨res, hres⟩ := hdone
          simp [hres, Reader.Merged]
        exact showsKey_of_not_misses hkey hmiss hmerged (hshows entries time (hdrop dir _ hslot))

/-! ### A step of `readdir` -/

/-- Before the listing is stored, the cache is what it was. -/
theorem reader_slot (h : r.Slot lister dir) (hdone : ∀ res, r.reader ≠ .done res)
    (hcache : s.dirCache = r.vfs.dirCache) (reader : Reader) (key : Option Str) :
    Slot lister dir { r with reader := reader, vfs := s, key := key } := by
  unfold Slot at h ⊢
  rcases h with hpasses | hnone | hlate | ⟨⟨res, hres⟩, -⟩
  · exact Or.inl hpasses
  · refine Or.inr (Or.inl ?_)
    show s.dirCache[dir]? = none
    rw [hcache]
    exact hnone
  · exact Or.inr (Or.inr (Or.inl hlate))
  · exact absurd hres (hdone res)

theorem readdirStep_keeps (n : Node) (acc : Vfs.Listing) (obj : Object) (s : Vfs) :
    (Vfs.readdirStep cfg dir n acc obj s).2.dirCache = s.dirCache ∧
      (Vfs.readdirStep cfg dir n acc obj s).2.bucket = s.bucket := by
  have hfree : InodeFree fun u : Vfs => u.dirCache = s.dirCache ∧ u.bucket = s.bucket := fun _ _ h => h
  exact (keeps_readdirStep hfree.internStable dir n acc obj).snd ⟨rfl, rfl⟩

theorem stored_cache (io : Io) (attrs : List Attr) (entries : List DirEntry) (s : Vfs) :
    ∃ u : Vfs, (Cmd.forEach (Vfs.storeAttr io) attrs >>= fun _ => Vfs.storeDir io dir entries) s =
        (.ok (), { u with dirCache := u.dirCache.insert dir (entries, io.instant) }) ∧
      u.bucket = s.bucket ∧ u.handles = s.handles ∧ u.inodes = s.inodes := by
  obtain ⟨u, hu⟩ := @Reader.forEach_storeAttr io attrs s
  have hfree : AttrFree fun u : Vfs =>
      u.bucket = s.bucket ∧ u.handles = s.handles ∧ u.inodes = s.inodes := fun _ _ h => h
  have hattr : ∀ a, Keeps _ (Vfs.storeAttr io a) := fun a => keeps_storeAttr hfree a
  have hkeeps := (keeps_forEach attrs fun a _ => hattr a).snd ⟨rfl, rfl, rfl⟩
  rw [hu] at hkeeps
  exact ⟨u, bind_ok hu, hkeeps⟩

/-- The files that are open for writing are in the handles and the inode table. -/
theorem pending_congr {s s' : Vfs} (hh : s'.handles = s.handles) (hi : s'.inodes = s.inodes)
    (x : Str) : s'.Pending dir x ↔ s.Pending dir x := by
  unfold Vfs.Pending Vfs.dirtyChildren
  rw [hh, hi]

theorem reader_start {io : Io} {x : Reader × Vfs} (h : Reader.step cfg dir io .start s = some x) :
    x.2 = s ∧ ((∃ n, x.1 = .list n) ∨ ∃ res, x.1 = .done res) := by
  cases hn : s.inodes.get dir with
  | none =>
    obtain ⟨e, he⟩ := node_none hn
    simp only [Reader.step, he, Option.some.injEq] at h
    subst h
    exact ⟨rfl, Or.inr ⟨_, rfl⟩⟩
  | some n =>
    simp only [Reader.step, node_ok hn] at h
    split at h
    · obtain rfl := Option.some.inj h
      exact ⟨rfl, Or.inr ⟨_, rfl⟩⟩
    · split at h
      · obtain rfl := Option.some.inj h
        exact ⟨rfl, Or.inr ⟨_, rfl⟩⟩
      · obtain rfl := Option.some.inj h
        exact ⟨rfl, Or.inl ⟨n, rfl⟩⟩

theorem reader_collect {io : Io} {n : Node} {obj : Object} {objs : List Object} {acc : Vfs.Listing}
    {x : Reader × Vfs} (hseen : acc.Seen)
    (h : Reader.step cfg dir io (.collect n (obj :: objs) acc) s = some x) :
    x.2.dirCache = s.dirCache ∧ x.2.bucket = s.bucket ∧
      ((∃ acc' : Vfs.Listing, x.1 = .collect n objs acc' ∧ acc'.Seen ∧
          shown n.key objs acc'.view = shown n.key (obj :: objs) acc.view) ∨
        (x.1 = .merge n acc ∧ acc.view = shown n.key (obj :: objs) acc.view) ∨
        ∃ res, x.1 = .done res) := by
  have hkeeps := @readdirStep_keeps cfg dir n acc obj s
  have hyields := @Vfs.readdirStep_shown cfg dir n acc hseen obj s
  cases hrun : Vfs.readdirStep cfg dir n acc obj s with
  | mk res s' =>
    rw [hrun] at hkeeps hyields
    cases res with
    | error e =>
      simp only [Reader.step, hrun, Option.some.injEq] at h
      subst h
      exact ⟨hkeeps.1, hkeeps.2, Or.inr (Or.inr ⟨_, rfl⟩)⟩
    | ok o =>
      cases o with
      | none =>
        simp only [Reader.step, hrun, Option.some.injEq] at h
        subst h
        have hnone : shownStep n.key acc.view obj = none := hyields none rfl
        refine ⟨hkeeps.1, hkeeps.2, Or.inr (Or.inl ⟨rfl, ?_⟩)⟩
        simp only [shown, hnone]
      | some acc' =>
        simp only [Reader.step, hrun, Option.some.injEq] at h
        subst h
        obtain ⟨hseen', hsome⟩ : acc'.Seen ∧ shownStep n.key acc.view obj = some acc'.view :=
          hyields (some acc') rfl
        refine ⟨hkeeps.1, hkeeps.2, Or.inl ⟨acc', rfl, hseen', ?_⟩⟩
        simp only [shown, hsome]

theorem reader_inv {io : Io} (h : r.Inv lister dir)
    (hstep : r.step cfg lister dir (.reader io) = some r') : r'.Inv lister dir := by
  obtain ⟨vfs, reader, writer, key, late⟩ := r
  obtain ⟨hdrops, hphase, hslot⟩ := h
  cases reader with
  | done res => cases hstep
  | start =>
    obtain ⟨⟨reader', vfs'⟩, hx, rfl⟩ := Option.map_eq_some_iff.mp hstep
    obtain ⟨rfl, ⟨n, rfl⟩ | ⟨res, rfl⟩⟩ := reader_start hx
    · exact ⟨hdrops, trivial, reader_slot hslot (by simp) rfl _ _⟩
    · exact ⟨hdrops, trivial, reader_slot hslot (by simp) rfl _ _⟩
  | list n =>
    obtain ⟨⟨reader', vfs'⟩, hx, rfl⟩ := Option.map_eq_some_iff.mp hstep
    simp only [Reader.step, cfg.objUrl_eq, Option.some.injEq, Prod.mk.injEq] at hx
    obtain ⟨rfl, rfl⟩ := hx
    refine ⟨hdrops, ⟨Vfs.Listing.seen_empty, rfl, fun _ => rfl⟩, reader_slot hslot (by simp) rfl _ _⟩
  | collect n objs acc =>
    obtain ⟨⟨reader', vfs'⟩, hx, rfl⟩ := Option.map_eq_some_iff.mp hstep
    obtain ⟨hseen, hkey, hview⟩ := hphase
    cases objs with
    | nil =>
      obtain ⟨rfl, rfl⟩ := Prod.mk.inj (Option.some.inj hx)
      exact ⟨hdrops, ⟨hseen, hkey, hview⟩, reader_slot hslot (by simp) rfl _ _⟩
    | cons obj objs =>
      obtain ⟨hcache, hbucket, hcases⟩ := reader_collect hseen hx
      have hslot' := fun reader => reader_slot hslot (by simp) hcache reader key
      dsimp only at hbucket
      rcases hcases with ⟨acc', rfl, hseen', hshown⟩ | ⟨rfl, hshown⟩ | ⟨res, rfl⟩
      · refine ⟨hdrops, ⟨hseen', hkey, fun hlate => ?_⟩, hslot' _⟩
        rw [hshown, hview hlate, hbucket]
      · refine ⟨hdrops, ⟨hseen, hkey, fun hlate => ?_⟩, hslot' _⟩
        rw [hshown, hview hlate, hbucket]
      · exact ⟨hdrops, trivial, hslot' _⟩
  | merge n acc =>
    obtain rfl := Option.some.inj hstep
    obtain ⟨hseen, hkey, hview⟩ := hphase
    refine ⟨hdrops, ⟨hkey, fun hlate => ?_⟩, reader_slot hslot (by simp) rfl _ _⟩
    exact Vfs.showsKey_merge hseen (hview hlate) io
  | store n acc entries =>
    obtain rfl := Option.some.inj hstep
    obtain ⟨hkey, hshows⟩ := hphase
    refine ⟨hdrops, trivial, ?_⟩
    by_cases hlate : late
    · exact Or.inr (Or.inr (Or.inl hlate))
    · refine Or.inr (Or.inr (Or.inr ⟨⟨_, rfl⟩, n.key, hkey, fun es time hes => ?_⟩))
      obtain ⟨u, hu, hb, hh, hi⟩ := @stored_cache dir io acc.attrs entries vfs
      dsimp only at hes ⊢
      rw [hu] at hes ⊢
      rw [Std.ExtTreeMap.getElem?_insert_self, Option.some.injEq, Prod.mk.injEq] at hes
      obtain ⟨rfl, -⟩ := hes
      intro x kind
      have hp := @pending_congr dir vfs { u with dirCache := u.dirCache.insert dir (entries, io.instant) }
        hh hi x
      rw [hp]
      dsimp only
      rw [hb]
      exact hshows hlate x kind

theorem step_inv {turn : Turn} (h : r.Inv lister dir)
    (hstep : r.step cfg lister dir turn = some r') : r'.Inv lister dir := by
  cases turn with
  | reader io => exact reader_inv h hstep
  | writer =>
    cases hwriter : r.writer with
    | done res =>
      simp only [step, hwriter] at hstep
      cases hstep
    | act change next =>
      simp only [step, hwriter, Option.some.injEq] at hstep
      subst hstep
      have hdrops := h.drops
      rw [hwriter] at hdrops
      exact ⟨hdrops.2 r.vfs, writer_phase h.phase, writer_slot hwriter h.drops h.slot⟩

/-- When both have returned, a listing in the cache shows the directory as it is, unless
it misses a change that the mutation made or is of a key that the directory had. -/
theorem cached_listing_shows (cfg : VfsConfig) (lister : Lister) (s : Vfs) (m : Mutation) (dir : Nat)
    (hdir : dir ∈ m.dirs) (turns : List Turn) (t : Race)
    (hrun : Machine.run (Race.step cfg lister dir) { vfs := s, writer := m.thread cfg } turns = some t)
    (hreturned : t.returned = true) (hlate : ¬ t.late)
    (hkey : ∀ k ∈ t.key, (t.vfs.inodes.get dir).map Node.key = some k) (entries : List DirEntry)
    (time : Nat) (hslot : t.vfs.dirCache[dir]? = some (entries, time)) :
    t.vfs.Shows lister dir entries := by
  have hinv : t.Inv lister dir := Machine.run_invariant (P := Inv lister dir)
    (fun _ _ _ hstep h => step_inv h hstep) hrun ⟨m.within, trivial, Or.inl (Mutation.passes hdir)⟩
  rcases hinv.slot with hpasses | hnone | hl | ⟨-, k, hk, hshows⟩
  · -- a mutation that has returned has nothing ahead
    unfold returned at hreturned
    split at hreturned
    · rename_i hwriter
      rw [hwriter] at hpasses
      exact absurd hpasses (by simp [Passes])
    · cases hreturned
  · rw [show t.vfs.dirCache[dir]? = none from hnone] at hslot
    cases hslot
  · exact absurd hl hlate
  · obtain ⟨n, hn, rfl⟩ := Option.map_eq_some_iff.mp (hkey k hk)
    exact ⟨n, hn, hshows entries time hslot⟩

/-! ### Two schedules -/

/-- Before the listing is asked for, there is nothing to miss. -/
theorem not_late_of_run {turns : List Turn} (hrun : Machine.run (step cfg lister dir) r turns = some r')
    (hr : ¬ r.late) (hkey : r'.key = none) : ¬ r'.late := by
  refine Machine.run_invariant (P := fun u : Race => u.key = none → ¬ u.late) ?_ hrun (fun _ => hr) hkey
  intro u turn u' hstep hu hnone
  cases turn with
  | writer =>
    simp only [step] at hstep
    split at hstep
    · cases hstep
    · obtain rfl := Option.some.inj hstep
      rintro ⟨hlate | ⟨k, hk, -⟩, -⟩
      · exact hu hnone hlate
      · rw [show u.key = none from hnone] at hk
        cases hk
  | reader io =>
    simp only [step] at hstep
    split at hstep
    · obtain ⟨x, -, rfl⟩ := Option.map_eq_some_iff.mp hstep
      cases hnone
    · obtain ⟨x, -, rfl⟩ := Option.map_eq_some_iff.mp hstep
      exact hu hnone

/-- The reader does not change anything for others. -/
theorem not_late_of_reader {ios : List Io}
    (hrun : Machine.run (step cfg lister dir) r (ios.map .reader) = some r') (hr : ¬ r.late) :
    ¬ r'.late := by
  have hreaders : ∀ turn ∈ ios.map Turn.reader, turn ≠ .writer := by simp
  refine Machine.along_invariant (P := fun u : Race => ¬ u.late) ?_
    (Machine.along_of_mem r hreaders) hrun hr
  intro u turn u' hturn hstep hu
  cases turn with
  | writer => exact absurd rfl hturn
  | reader io =>
    simp only [step] at hstep
    split at hstep
    · obtain ⟨x, -, rfl⟩ := Option.map_eq_some_iff.mp hstep
      exact hu
    · obtain ⟨x, -, rfl⟩ := Option.map_eq_some_iff.mp hstep
      exact hu

/-- A mount that keeps listings. -/
def keeping : VfsConfig := { VfsConfig.sample with dirTtl := 60 }

/-- The files `a` and `b`. -/
def twoFiles : Str → Option Stored := fun k => if k = ['a'] ∨ k = ['b'] then some ⟨[], none⟩ else none

def rootLister : Lister := fun bucket _ =>
  ([['a'], ['b']].filter fun k => (bucket k).isSome).map fun k =>
    { url := some (keeping.url k), typ := .file }

/-- The file `a` is removed while the root is listed. -/
def removing : Race :=
  { vfs := .new [] twoFiles, writer := (Mutation.unlink {} rootInode ['a']).thread keeping }

/-- The file is removed after `readdir` has found nothing in the cache and before it asks
for the listing. -/
def removedBefore : List Turn := .reader {} :: List.replicate 4 .writer

theorem cached_listing_shows_removed :
    ∃ t entries, Machine.run (step keeping rootLister rootInode) removing
        (removedBefore ++ (List.replicate 5 ({} : Io)).map .reader) = some t ∧
      t.vfs.cachedDir keeping {} rootInode = some entries ∧
      entries.map DirEntry.name = [['b']] ∧ t.vfs.Shows rootLister rootInode entries := by
  obtain ⟨u, hu, hnone⟩ : ∃ u, Machine.run (step keeping rootLister rootInode) removing removedBefore =
      some u ∧ u.key = none := Machine.exists_run_of_any (by decide +kernel)
  obtain ⟨t, ht, hreturned, hkey, hroot, hslot, hnames⟩ : ∃ t,
      Machine.run (step keeping rootLister rootInode) removing
        (removedBefore ++ (List.replicate 5 ({} : Io)).map .reader) = some t ∧
      t.returned = true ∧ t.key = some [] ∧ (t.vfs.inodes.get rootInode).map Node.key = some [] ∧
      (t.vfs.dirCache[rootInode]?.map Prod.snd) = some 0 ∧
      ((t.vfs.cachedDir keeping {} rootInode).map (List.map DirEntry.name)) = some [['b']] :=
    Machine.exists_run_of_any (by decide +kernel)
  obtain ⟨⟨entries, time⟩, hslot, rfl⟩ := Option.map_eq_some_iff.mp hslot
  have hcached : t.vfs.cachedDir keeping {} rootInode = some entries := by
    unfold Vfs.cachedDir
    rw [hslot]
    rfl
  rw [hcached] at hnames
  refine ⟨t, entries, ht, hcached, Option.some.inj hnames, ?_⟩
  have hlate : ¬ t.late := by
    obtain ⟨u', hu', hrest⟩ := Machine.run_append_eq_some.mp ht
    obtain rfl := Option.some.inj (hu.symm.trans hu')
    exact not_late_of_reader hrest (not_late_of_run hu (fun h => h) hnone)
  refine cached_listing_shows keeping rootLister (.new [] twoFiles) (.unlink {} rootInode ['a'])
    rootInode List.mem_cons_self _ t ht hreturned hlate (fun k hk => ?_) entries _ hslot
  rw [hkey] at hk
  rw [hroot, ← hk]

/-- The listing is asked for, then the file is removed, then the listing is stored: it
has the removed file, and it is fresh. -/
theorem cached_listing_keeps_removed :
    ∃ t entries, Machine.run (step keeping rootLister rootInode) removing
        ([.reader {}, .reader {}] ++ List.replicate 4 .writer ++ List.replicate 5 (.reader {})) = some t ∧
      t.returned = true ∧ t.vfs.cachedDir keeping {} rootInode = some entries ∧
      t.vfs.bucket ['a'] = none ∧ ['a'] ∈ entries.map DirEntry.name ∧
      ¬ t.vfs.Shows rootLister rootInode entries := by
  obtain ⟨t, ht, hreturned, hbucket, hcached, hroot, hpending⟩ : ∃ t,
      Machine.run (step keeping rootLister rootInode) removing
        ([.reader {}, .reader {}] ++ List.replicate 4 .writer ++ List.replicate 5 (.reader {})) = some t ∧
      t.returned = true ∧ t.vfs.bucket ['a'] = none ∧
      ((t.vfs.cachedDir keeping {} rootInode).map (List.map DirEntry.name)) = some [['a'], ['b']] ∧
      ((t.vfs.inodes.get rootInode).map fun n => shown n.key (rootLister t.vfs.bucket n.key) []) =
        some [(['b'], .file)] ∧ t.vfs.dirtyChildren {} rootInode = [] :=
    Machine.exists_run_of_any (by decide +kernel)
  obtain ⟨entries, hentries, hnames⟩ := Option.map_eq_some_iff.mp hcached
  refine ⟨t, entries, ht, hreturned, hentries, hbucket, ?_, ?_⟩
  · rw [hnames]
    exact List.mem_cons_self
  · rintro ⟨n, hn, hshows⟩
    rw [hn] at hroot
    have hshown : shown n.key (rootLister t.vfs.bucket n.key) [] = [(['b'], .file)] :=
      Option.some.inj hroot
    have hmem : ['a'] ∈ entries.map DirEntry.name := by
      rw [hnames]
      exact List.mem_cons_self
    obtain ⟨e, he, hname⟩ := List.mem_map.mp hmem
    rcases (hshows ['a'] e.kind).mp ⟨e, he, hname, rfl⟩ with hin | ⟨-, ⟨ino, hin⟩, -⟩
    · rw [hshown, List.mem_singleton, Prod.mk.injEq] at hin
      exact absurd hin.1 (by decide)
    · rw [hpending] at hin
      exact absurd hin (by simp)

end Race

end Rs5cmd
