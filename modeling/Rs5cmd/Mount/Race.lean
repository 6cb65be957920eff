import Rs5cmd.Lib.Machine
import Rs5cmd.Mount.HandleSpec
import Rs5cmd.Mount.Threads

/-!
# A listing and a mutation at the same time

`readdir` does not hold the lock of the directory cache while it lists the bucket:
it looks into the cache, asks for the listing, takes its objects one by one into the
inode table, adds the files that are open for writing, and stores the result. A
mutation of the directory can come between any two of these steps.
-/

namespace Rs5cmd

open Cmd

/-! ## The steps of `readdir` -/

/-- Where a call of `readdir` is. -/
inductive Reader where
  | start
  | list (n : Node)
  | collect (n : Node) (objs : List Object) (acc : Vfs.Listing)
  | merge (n : Node) (acc : Vfs.Listing)
  | store (n : Node) (acc : Vfs.Listing) (entries : List DirEntry)
  | done (r : Except MountError (List DirEntry))

namespace Reader

/-- The next step, with what it is answered. -/
def step (cfg : VfsConfig) (dir : Nat) (io : Io) : Reader → Vfs → Option (Reader × Vfs)
  | .start, s =>
    match Vfs.node dir s with
    | (.error e, s) => some (.done (.error e), s)
    | (.ok n, s) =>
      if !n.kind.isDir then
        some (.done (.error (notFound ("inode ".toList ++ Str.decimal dir))), s)
      else
        match s.cachedDir cfg io dir with
        | some entries => some (.done (.ok entries), s)
        | none => some (.list n, s)
  | .list n, s =>
    match cfg.objUrl n.key with
    | .error e => some (.done (.error e), s)
    | .ok _ => some (.collect n io.list {}, s)
  | .collect n [] acc, s => some (.merge n acc, s)
  | .collect n (obj :: objs) acc, s =>
    match Vfs.readdirStep cfg dir n acc obj s with
    | (.error e, s) => some (.done (.error e), s)
    | (.ok (some acc), s) => some (.collect n objs acc, s)
    | (.ok none, s) => some (.merge n acc, s)
  | .merge n acc, s => some (.store n acc (Vfs.mergeDirty acc (s.dirtyChildren io dir)), s)
  | .store _ acc entries, s =>
    let stored : VfsM Unit := do
      forEach (Vfs.storeAttr io) acc.attrs
      Vfs.storeDir io dir entries
    some (.done (.ok entries), (stored s).2)
  | .done _, _ => none

/-- The steps of a call that nothing comes between. -/
abbrev alone (cfg : VfsConfig) (dir : Nat) (io : Io) (x : Reader × Vfs) (_ : Unit) :
    Option (Reader × Vfs) :=
  x.1.step cfg dir io x.2

variable {cfg : VfsConfig} {dir : Nat} {io : Io}

theorem forEach_storeAttr (attrs : List Attr) (s : Vfs) :
    ∃ u, forEach (Vfs.storeAttr io) attrs s = (.ok (), u) := by
  induction attrs generalizing s with
  | nil => exact ⟨s, rfl⟩
  | cons a attrs ih => exact ih _

theorem alone_collect (n : Node) (objs : List Object) (acc : Vfs.Listing) (s : Vfs) :
    ∃ es, Machine.run (alone cfg dir io) (.collect n objs acc, s) es = some (
      match Vfs.readdirLoop cfg dir n objs acc s with
      | (.ok acc', s') => (.merge n acc', s')
      | (.error e, s') => (.done (.error e), s')) := by
  induction objs generalizing acc s with
  | nil => exact ⟨[()], rfl⟩
  | cons obj objs ih =>
    cases hrun : Vfs.readdirStep cfg dir n acc obj s with
    | mk r s' =>
      have hstep : ∀ x, step cfg dir io (.collect n (obj :: objs) acc) s = some x →
          ∀ {t}, (∃ es, Machine.run (alone cfg dir io) x es = some t) →
          ∃ es, Machine.run (alone cfg dir io) (.collect n (obj :: objs) acc, s) es = some t := by
        rintro x hx t ⟨es, hes⟩
        exact ⟨() :: es, Machine.run_cons_eq_some.mpr ⟨x, hx, hes⟩⟩
      cases r with
      | error e =>
        rw [show Vfs.readdirLoop cfg dir n (obj :: objs) acc s = (.error e, s') from bind_error hrun]
        exact hstep _ (by simp only [step, hrun]) ⟨[], rfl⟩
      | ok o =>
        rw [show Vfs.readdirLoop cfg dir n (obj :: objs) acc s = _ from bind_ok hrun]
        cases o with
        | none => exact hstep (.merge n acc, s') (by simp only [step, hrun]) ⟨[], rfl⟩
        | some acc' => exact hstep _ (by simp only [step, hrun]) (ih acc' s')

/-- Without anything in between, the steps make up `readdir`. -/
theorem alone_readdir (s : Vfs) :
    ∃ es, Machine.run (alone cfg dir io) (.start, s) es =
      some (.done (Vfs.readdir cfg io dir s).1, (Vfs.readdir cfg io dir s).2) := by
  have hfirst : ∀ {x t : Reader × Vfs}, step cfg dir io .start s = some x →
      (∃ es, Machine.run (alone cfg dir io) x es = some t) →
      ∃ es, Machine.run (alone cfg dir io) (.start, s) es = some t := by
    rintro x t hx ⟨es, hes⟩
    exact ⟨() :: es, Machine.run_cons_eq_some.mpr ⟨x, hx, hes⟩⟩
  cases hn : s.inodes.get dir with
  | none =>
    obtain ⟨e, he⟩ := node_none hn
    rw [show Vfs.readdir cfg io dir s = (.error e, s) from bind_error he]
    exact hfirst (by simp only [step, he]) ⟨[], rfl⟩
  | some n =>
    have hnode := node_ok hn
    rw [show Vfs.readdir cfg io dir s = _ from bind_ok hnode]
    cases hdir : n.kind.isDir with
    | false => exact hfirst (by simp only [step, hnode, hdir]; rfl) ⟨[], rfl⟩
    | true =>
      simp only [Bool.not_true, Bool.false_eq_true, if_false, get_bind]
      cases hcached : s.cachedDir cfg io dir with
      | some entries => exact hfirst (by simp only [step, hnode, hdir, hcached]; rfl) ⟨[], rfl⟩
      | none =>
        refine hfirst (x := (.list n, s)) (by simp only [step, hnode, hdir, hcached]; rfl) ?_
        obtain ⟨es, hes⟩ := @alone_collect cfg dir io n io.list {} s
        dsimp only
        rw [cfg.objUrl_eq, ofExcept_ok_bind]
        cases hloop : Vfs.readdirLoop cfg dir n io.list {} s with
        | mk r u =>
          rw [hloop] at hes
          have hlist : step cfg dir io (.list n) s = some (.collect n io.list {}, s) := by
            simp only [step, cfg.objUrl_eq]
          cases r with
          | error e =>
            rw [bind_error hloop]
            exact ⟨() :: es, Machine.run_cons_eq_some.mpr ⟨_, hlist, hes⟩⟩
          | ok acc =>
            rw [bind_ok hloop, get_bind]
            obtain ⟨v, hv⟩ := @forEach_storeAttr io acc.attrs u
            refine ⟨() :: (es ++ [(), ()]), Machine.run_cons_eq_some.mpr ⟨_, hlist, ?_⟩⟩
            refine Machine.run_append_eq_some.mpr ⟨_, hes, ?_⟩
            have hstored : (forEach (Vfs.storeAttr io) acc.attrs >>= fun _ =>
                Vfs.storeDir io dir (Vfs.mergeDirty acc (u.dirtyChildren io dir))) u =
                Vfs.storeDir io dir (Vfs.mergeDirty acc (u.dirtyChildren io dir)) v := bind_ok hv
            simp only [Machine.run, step, alone, Option.bind_some, hstored]
            rw [bind_ok hv]
            rfl

end Reader

/-! ## Mutations of a directory -/

/-- A mutation of a directory; a created file is released afterwards. -/
inductive Mutation where
  | create (io io' : Io) (parent : Nat) (name : Str)
  | unlink (io : Io) (parent : Nat) (name : Str)
  | mkdir (io : Io) (parent : Nat) (name : Str)
  | rmdir (io : Io) (parent : Nat) (name : Str)
  | rename (io : Io) (parent : Nat) (name : Str) (newparent : Nat) (newname : Str)

namespace Mutation

/-- The directories that it is in. -/
def dirs : Mutation → List Nat
  | .create _ _ parent _ | .unlink _ parent _ | .mkdir _ parent _ | .rmdir _ parent _ => [parent]
  | .rename _ parent _ newparent _ => [parent, newparent]

def thread (cfg : VfsConfig) : Mutation → VfsThread Unit
  | .create io io' parent name => Vfs.createReleaseSteps cfg io io' parent name
  | .unlink io parent name => Vfs.unlinkSteps cfg io parent name
  | .mkdir io parent name => do
    let _ ← Vfs.mkdirSteps cfg io parent name
  | .rmdir io parent name => Vfs.rmdirSteps cfg io parent name
  | .rename io parent name newparent newname => Vfs.renameSteps cfg io parent name newparent newname

/-- Without anything in between, a mutation is the operation of the VFS. -/
theorem run_thread (cfg : VfsConfig) (m : Mutation) :
    (m.thread cfg).run = match m with
      | .create io io' parent name => (do
        let (_, fh, _) ← Vfs.create cfg io parent name
        Vfs.release io' fh)
      | .unlink io parent name => Vfs.unlink cfg io parent name
      | .mkdir io parent name => (do
        let _ ← Vfs.mkdir cfg io parent name)
      | .rmdir io parent name => Vfs.rmdir cfg io parent name
      | .rename io parent name newparent newname =>
        Vfs.rename cfg io parent name newparent newname := by
  cases m with
  | create io io' parent name =>
    simp only [thread, Vfs.createReleaseSteps, Thread.run_bind, Vfs.run_createSteps,
      Vfs.run_releaseSteps]
  | unlink io parent name => exact Vfs.run_unlinkSteps cfg io parent name
  | mkdir io parent name =>
    simp only [thread, Thread.run_bind, Vfs.run_mkdirSteps]
    rfl
  | rmdir io parent name => exact Vfs.run_rmdirSteps cfg io parent name
  | rename io parent name newparent newname =>
    exact Vfs.run_renameSteps cfg io parent name newparent newname

end Mutation

/-! ## What a listing shows -/

/-- The answer to the listing of a key, given what the bucket holds. -/
abbrev Lister := (Str → Option Stored) → Str → List Object

/-- The names and kinds that `readdir` makes of an object; `none` ends the listing. -/
def shownStep (key : Str) (view : List (Str × NodeKind)) (obj : Object) :
    Option (List (Str × NodeKind)) :=
  match obj.err with
  | some _ => none
  | none =>
    match obj.url with
    | none => some view
    | some u =>
      let rel := (Str.stripPrefix key u.path).getD u.path
      if rel = [] then some view
      else
        match obj.typ with
        | .dir =>
          let name := Str.trimEndMatches '/' rel
          if name = [] ∨ name ∈ view.map Prod.fst then some view else some (view ++ [(name, .dir)])
        | .file => if rel ∈ view.map Prod.fst then some view else some (view ++ [(rel, .file)])
        | _ => some view

/-- The names and kinds that `readdir` makes of a listing. -/
def shown (key : Str) : List Object → List (Str × NodeKind) → List (Str × NodeKind)
  | [], view => view
  | obj :: objs, view =>
    match shownStep key view obj with
    | some view => shown key objs view
    | none => view

/-- A file of the directory that is open for writing. -/
def Vfs.Pending (s : Vfs) (dir : Nat) (x : Str) : Prop := ∃ ino, (ino, x) ∈ s.dirtyChildren {} dir

/-- The entries are those of the directory under `key`: what a listing of the bucket
shows, and besides the files that are open for writing. -/
def Vfs.ShowsKey (lister : Lister) (s : Vfs) (dir : Nat)
    (key : Str) (entries : List DirEntry) : Prop :=
  ∀ x kind, (∃ e ∈ entries, e.name = x ∧ e.kind = kind) ↔
    (x, kind) ∈ shown key (lister s.bucket key) [] ∨
      kind = .file ∧ s.Pending dir x ∧ x ∉ (shown key (lister s.bucket key) []).map Prod.fst

/-- The entries are those of the directory. -/
def Vfs.Shows (lister : Lister) (s : Vfs) (dir : Nat)
    (entries : List DirEntry) : Prop :=
  ∃ n, s.inodes.get dir = some n ∧ s.ShowsKey lister dir n.key entries

/-! ## Both together -/

/-- The files that are open for writing have been added. -/
def Reader.Merged : Reader → Prop
  | .store .. | .done _ => True
  | _ => False

/-- A `readdir` and a mutation. The last two fields are not part of the program: the
key that was listed, and whether the listing misses a change of the mutation. -/
structure Race where
  vfs : Vfs
  reader : Reader := .start
  writer : VfsThread Unit
  key : Option Str := none
  late : Prop := False

/-- Whose turn it is; the reader's step is answered by `io`. -/
inductive Turn where
  | reader (io : Io)
  | writer

/-- No listing of the directory is cached. -/
def NoListing (dir : Nat) (s : Vfs) : Prop := s.dirCache[dir]? = none

namespace Race

/-- Both calls have returned without an error. -/
def returned (r : Race) : Bool :=
  match r.reader, r.writer with
  | .done (.ok _), .done (.ok _) => true
  | _, _ => false

/-- A change comes after `readdir` has looked at what it changes. -/
def Misses (lister : Lister) (dir : Nat) (r : Race) (s : Vfs) : Prop :=
  ∃ k ∈ r.key,
    shown k (lister s.bucket k) [] ≠ shown k (lister r.vfs.bucket k) [] ∨
      r.reader.Merged ∧ ∃ x, ¬ (s.Pending dir x ↔ r.vfs.Pending dir x)

/-- A step of one of the two. A change that is missed does not matter once the
directory is invalidated after the listing has been stored. -/
def step (cfg : VfsConfig) (lister : Lister) (dir : Nat) (r : Race) : Turn → Option Race
  | .writer =>
    match r.writer with
    | .done _ => none
    | .act change next =>
      some { r with
        vfs := change r.vfs
        writer := next r.vfs
        late := (r.late ∨ r.Misses lister dir (change r.vfs)) ∧
          ¬ ((∃ res, r.reader = .done res) ∧ ∀ s, NoListing dir (change s)) }
  | .reader io =>
    match r.reader with
    | .list n =>
      (r.reader.step cfg dir { io with list := lister r.vfs.bucket n.key } r.vfs).map fun x =>
        { r with reader := x.1, vfs := x.2, key := some n.key }
    | _ => (r.reader.step cfg dir io r.vfs).map fun x => { r with reader := x.1, vfs := x.2 }

end Race

end Rs5cmd
