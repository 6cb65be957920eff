import Rs5cmd.Lib.Cursor
import Rs5cmd.Lib.Machine
import Rs5cmd.Mount.FuseSpec
import Rs5cmd.Mount.HandleSpec
import Rs5cmd.Mount.Image

/-!
# Walking a directory

`readdir` of the adapter takes its entries from the directory as it is at the time
of the call and continues by position. Between two calls an entry that stays can
move: what is created or removed before it shifts it across the offset at which
the next call continues. A walk returns an entry once exactly when it crosses that
offset as often in one direction as in the other.
-/

namespace Rs5cmd

open Cmd

/-! ## Listings have each name once -/

/-- Every cached listing has each name once. -/
def Vfs.ListsOnce (s : Vfs) : Prop :=
  ∀ (i : Nat) es t, s.dirCache[i]? = some (es, t) → (es.map DirEntry.name).Nodup

section ListsOnce

variable {cfg : VfsConfig} {io : Io}

theorem listsOnce_cacheStable : CacheStable Vfs.ListsOnce where
  attrCache _ _ h := h
  dirDrop _ _ hd h := fun i es t hi => h i es t (hd i (es, t) hi)
  dirStore s ino es t hes h := by
    intro i es' t' hi
    rw [Maps.getElem?_insert_eq] at hi
    split at hi
    · obtain ⟨rfl, rfl⟩ := Prod.mk.inj (Option.some.inj hi)
      exact hes
    · exact h i es' t' hi

theorem listsOnce_dirtyFree : DirtyFree Vfs.ListsOnce := fun _ _ h => h

theorem listsOnce_bucketFree : BucketFree Vfs.ListsOnce := fun _ _ h => h

theorem listsOnce_inodeFree : InodeFree Vfs.ListsOnce := fun _ _ h => h

theorem listsOnce_dstFree : DstFree Vfs.ListsOnce := fun _ _ _ _ _ _ h => h

theorem listsOnce_tempFree : TempFree Vfs.ListsOnce where
  nextFh _ h := h
  temp _ _ _ _ h := h

theorem listsOnce_writerStable : WriterStable Vfs.ListsOnce where
  file _ _ _ h := h
  close _ _ h := h
  writer _ _ _ _ _ _ _ h := h
  stored _ _ _ _ _ _ _ h := h

theorem CachesFrom.listsOnce {s s' : Vfs} {z : Std.ExtTreeMap Nat (Nat × Int) compare}
    (hc : CachesFrom s z s') (h : s.ListsOnce) : s'.ListsOnce :=
  fun i es t hi => h i es t (hc.dirCache i (es, t) hi)

theorem keeps_openFile_listsOnce (ino : Nat) (flags : BitVec 32) :
    Keeps Vfs.ListsOnce (Vfs.openFile cfg io ino flags) := by
  apply keeps_of_snd
  intro s hs
  have hspec := openFile_spec cfg io ino flags s
  generalize Vfs.openFile cfg io ino flags s = r at hspec
  cases hspec with
  | read _ _ _ _ hc => exact hc.listsOnce hs
  | write _ _ _ _ _ hc => exact hc.listsOnce hs
  | error _ _ _ _ _ hc => exact hc.listsOnce hs

theorem keeps_create_listsOnce (parent : Nat) (name : Str) :
    Keeps Vfs.ListsOnce (Vfs.create cfg io parent name) := by
  apply keeps_of_snd
  intro s hs
  have hspec := create_spec cfg io parent name s
  generalize Vfs.create cfg io parent name s = r at hspec
  cases hspec with
  | ok _ _ _ _ _ _ hc => exact hc.listsOnce hs
  | error => exact hs
  | noFile => exact hs

theorem exec_listsOnce (o : Op) : Keeps Vfs.ListsOnce (o.exec cfg io) := by
  have hc := listsOnce_cacheStable
  have hd := listsOnce_dirtyFree
  have hb := listsOnce_bucketFree
  have hi := listsOnce_inodeFree
  have ht := listsOnce_tempFree
  have hw := listsOnce_writerStable
  cases o with
  | getattr ino => exact (keeps_getattr hc.attrCache ino).bind_pure
  | lookup parent name =>
    exact (keeps_lookup hc.attrCache hi.internStable parent name).bind_pure
  | readdir ino => exact (keeps_readdir hc hi.internStable ino).bind_pure
  | read ino fh offset size =>
    exact (keeps_readHandle hc.attrCache ino fh offset size).bind_pure
  | openFile ino flags => exact (keeps_openFile_listsOnce ino flags).bind_pure
  | create parent name => exact (keeps_create_listsOnce parent name).bind_pure
  | write fh offset data =>
    exact (keeps_writeHandle hc hd hw fh offset data).bind_pure
  | flush fh => exact (keeps_flushHandle hw fh).bind_pure
  | release fh => exact (keeps_release hc hd hw fh).bind_pure
  | setattr ino size fh =>
    exact (keeps_setattr hc hd ht hb hw ino size fh).bind_pure
  | unlink parent name =>
    exact (keeps_unlink hc hd hb hi.forgetStable parent name).bind_pure
  | mkdir parent name =>
    exact (keeps_mkdir hc ht hb hi.internStable parent name).bind_pure
  | rmdir parent name =>
    exact (keeps_rmdir hc hb hi.forgetStable parent name).bind_pure
  | rename parent name newparent newname =>
    exact (keeps_rename hc hb hi listsOnce_dstFree parent name newparent newname).bind_pure

theorem new_listsOnce (rootKey : Str) (bucket : Str → Option Stored) :
    (Vfs.new rootKey bucket).ListsOnce := by
  intro i es t hi
  simp [Vfs.new] at hi

/-- What `readdir` returns has each name once. -/
theorem readdir_nodup {s : Vfs} (hs : s.ListsOnce) {ino : Nat} {es : List DirEntry}
    (h : (Vfs.readdir cfg io ino s).1 = .ok es) : (es.map DirEntry.name).Nodup := by
  cases hn : s.inodes.get ino with
  | none =>
    obtain ⟨e, he⟩ := node_none hn
    rw [show Vfs.readdir cfg io ino s = (.error e, s) from bind_error he] at h
    cases h
  | some n =>
    rw [show Vfs.readdir cfg io ino s = _ from bind_ok (node_ok hn)] at h
    cases hdir : n.kind.isDir with
    | false =>
      rw [hdir] at h
      cases h
    | true =>
      simp only [hdir, Bool.not_true, Bool.false_eq_true, if_false, get_bind] at h
      cases hcached : s.cachedDir cfg io ino with
      | some entries =>
        rw [hcached] at h
        obtain rfl := Except.ok.inj h
        obtain ⟨e, he, hfresh⟩ := Option.bind_eq_some_iff.mp hcached
        split at hfresh
        · obtain rfl := Option.some.inj hfresh
          exact hs ino e.1 e.2 he
        · cases hfresh
      | none =>
        rw [hcached] at h
        have hyields : Yields (do
            let _ ← ofExcept (cfg.objUrl n.key)
            let acc ← Vfs.readdirLoop cfg ino n io.list {}
            let s ← get
            let entries := Vfs.mergeDirty acc (s.dirtyChildren io ino)
            forEach (Vfs.storeAttr io) acc.attrs
            Vfs.storeDir io ino entries
            return entries) fun es => (es.map DirEntry.name).Nodup := by
          refine Yields.bind (yields_true _) fun _ _ => ?_
          refine Yields.bind (readdirLoop_distinct Vfs.Listing.distinct_empty ino n io.list) ?_
          intro acc hacc
          refine Yields.bind (yields_true _) fun u _ => Yields.bind (yields_true _) fun _ _ => ?_
          exact Yields.bind (yields_true _) fun _ _ => yields_pure (mergeDirty_nodup hacc _)
        exact hyields s es h

end ListsOnce

/-! ## Walks -/

/-- The name of a child; the first two entries, `.` and `..`, are none. -/
def DirectoryEntry.child (e : DirectoryEntry) : Option Str :=
  if e.offset ≤ 2 then none else some e.name

/-- The directory as a call sees it: `.` and `..`, then the children. -/
def Vfs.view (cfg : VfsConfig) (io : Io) (dir : Nat) (s : Vfs) : List (Option Str) :=
  match (Vfs.readdir cfg io dir s).1 with
  | .ok es => none :: none :: es.map fun e => some e.name
  | .error _ => []

/-- A walk in progress: where to continue, what was returned, and for each call the
directory as it saw it with the positions it covered. -/
structure Walk where
  vfs : Vfs
  offset : Nat := 0
  returned : List DirectoryEntry := []
  pages : List (Cursor.Page (Option Str)) := []
  done : Bool := false

/-- The next call of the walk, of whose answer the kernel has room for the first
`taken` entries, or any other request. -/
inductive WalkEvent where
  | call (ios : Nat → Io) (taken : Nat)
  | other (e : FuseEvent)

/-- How often the walk returned the child. -/
def Walk.times (w : Walk) (x : Str) : Nat := (w.returned.map DirectoryEntry.child).count (some x)

/-- The calls continue at the offset of the last entry taken, until one returns
nothing. A call that fails may be repeated. -/
def Walk.step (fs : S3Fuse) (cfg : VfsConfig) (dir : Nat) (w : Walk) : WalkEvent → Option Walk
  | .call ios taken =>
    if w.done then none
    else
      let view := w.vfs.view cfg (ios 0) dir
      match fs.exec cfg ios (.readdir dir w.offset) w.vfs with
      | (.ok (.directory []), s) =>
        some { w with vfs := s, pages := w.pages ++ [⟨view, w.offset, w.offset⟩], done := true }
      | (.ok (.directory (e :: es)), s) =>
        let got := (e :: es).take taken
        match got.getLast? with
        | none => none
        | some last =>
          some { w with
            vfs := s
            offset := last.offset
            returned := w.returned ++ got
            pages := w.pages ++ [⟨view, w.offset, last.offset⟩] }
      | (_, s) => some { w with vfs := s }
  | .other e => some { w with vfs := (fs.exec cfg e.ios e.request w.vfs).2 }

namespace Walk

variable {fs : S3Fuse} {cfg : VfsConfig} {dir : Nat}

/-! ## One call -/

/-- The entry at position `i`. -/
def entryAt (a : (Nat × Str × NodeKind) × Nat) : DirectoryEntry := ⟨a.1.1, a.1.2.2, a.1.2.1, a.2 + 1⟩

/-- Leaving out what comes before the offset is dropping that many entries. -/
theorem filterMap_zipIdx (all : List (Nat × Str × NodeKind)) (k o : Nat) :
    ((all.zipIdx k).filterMap fun ((ino, name, kind), i) =>
      if (i : Int) < (o : Int) then none else some (⟨ino, kind, name, i + 1⟩ : DirectoryEntry)) =
      ((all.zipIdx k).drop (o - k)).map entryAt := by
  induction all generalizing k with
  | nil => simp
  | cons a all ih =>
    rw [List.zipIdx_cons, List.filterMap_cons, ih]
    by_cases hk : k < o
    · have hint : ((k : Int) < (o : Int)) := by omega
      have hsub : o - k = (o - (k + 1)) + 1 := by omega
      simp only [hint, if_true, hsub, List.drop_succ_cons]
    · have hint : ¬ ((k : Int) < (o : Int)) := by omega
      have hsub : o - k = 0 := by omega
      have hsub' : o - (k + 1) = 0 := by omega
      simp only [hint, if_false, hsub, hsub', List.drop_zero, List.map_cons]
      rfl

theorem child_entryAt {k : Nat} (hk : 2 ≤ k) (es : List DirEntry) :
    ((es.map fun c => (c.ino, c.name, c.kind)).zipIdx k).map (DirectoryEntry.child ∘ entryAt) =
      es.map fun e => some e.name := by
  induction es generalizing k with
  | nil => rfl
  | cons e es ih =>
    rw [List.map_cons, List.zipIdx_cons, List.map_cons, List.map_cons, ih (by omega)]
    have hnot : ¬ k + 1 ≤ 2 := by omega
    simp only [Function.comp_apply, entryAt, DirectoryEntry.child, hnot, if_false]

/-- The answer to a call: the entries of the directory from the offset on, the one
at position `i` with the offset `i + 1`. -/
structure Answer (view : List (Option Str)) (o : Nat) (entries : List DirectoryEntry) : Prop where
  children : entries.map DirectoryEntry.child = view.drop o
  offset : ∀ j e, entries[j]? = some e → e.offset = o + j + 1

theorem exec_readdir (fs : S3Fuse) (cfg : VfsConfig) (dir : Nat) (ios : Nat → Io) (s : Vfs) (o : Nat) :
    (∃ e t, fs.exec cfg ios (.readdir dir o) s = (.error e, t)) ∨
      ∃ entries t, fs.exec cfg ios (.readdir dir o) s = (.ok (.directory entries), t) ∧
        Answer (s.view cfg (ios 0) dir) o entries := by
  cases hrun : Vfs.readdir cfg (ios 0) dir s with
  | mk r t =>
    have hcall : S3Fuse.call (Vfs.readdir cfg (ios 0) dir) s = (r.mapError errno, t) := by
      unfold S3Fuse.call mapError
      rw [hrun]
    cases r with
    | error e =>
      have hentries : S3Fuse.dirEntries cfg (ios 0) dir s = (.error (errno e), t) := bind_error hcall
      exact Or.inl ⟨errno e, t, bind_error hentries⟩
    | ok es =>
      let all := (dir, ".".toList, NodeKind.dir) :: (t.parentOf dir, "..".toList, NodeKind.dir) ::
        es.map fun c => (c.ino, c.name, c.kind)
      have hentries : S3Fuse.dirEntries cfg (ios 0) dir s = (.ok all, t) := bind_ok hcall
      have hview : s.view cfg (ios 0) dir = all.zipIdx.map (DirectoryEntry.child ∘ entryAt) := by
        simp only [Vfs.view, hrun, all, List.zipIdx_cons, List.map_cons]
        rw [child_entryAt (by omega)]
        rfl
      refine Or.inr ⟨(all.zipIdx.drop o).map entryAt, t, ?_, ?_, ?_⟩
      · refine (bind_ok hentries).trans ?_
        rw [filterMap_zipIdx]
        rfl
      · rw [hview, List.map_map, List.map_drop]
      · intro j e he
        rw [List.getElem?_map, List.getElem?_drop, List.getElem?_zipIdx] at he
        obtain ⟨a, ha, rfl⟩ := Option.map_eq_some_iff.mp he
        obtain ⟨b, -, rfl⟩ := Option.map_eq_some_iff.mp ha
        simp only [entryAt]
        omega

theorem Answer.last {view : List (Option Str)} {o n : Nat} {entries : List DirectoryEntry}
    (h : Answer view o entries) {last : DirectoryEntry}
    (hlast : (entries.take n).getLast? = some last) :
    last.offset = o + (entries.take n).length := by
  have hpos : 0 < (entries.take n).length := by
    refine List.length_pos_iff.mpr fun hnil => ?_
    rw [hnil] at hlast
    cases hlast
  rw [List.getLast?_eq_getElem?, List.getElem?_take] at hlast
  split at hlast
  · have hoff := h.offset _ last hlast
    omega
  · cases hlast

theorem Answer.got {view : List (Option Str)} {o n : Nat} {entries : List DirectoryEntry}
    (h : Answer view o entries) :
    Cursor.Page.got ⟨view, o, o + (entries.take n).length⟩ =
      (entries.take n).map DirectoryEntry.child := by
  show (view.take (o + (entries.take n).length)).drop o = _
  rw [List.drop_take, ← h.children, Nat.add_sub_cancel_left, ← List.map_take, List.take_eq_take_iff.mpr]
  rw [List.length_take]
  omega

/-! ## Whole walks -/

/-- What a walk keeps: the pages continue each other, together they are what was
returned, and none of them lists a child twice. -/
structure Consistent (w : Walk) : Prop where
  once : w.vfs.ListsOnce
  continues : Cursor.Continues w.pages
  start : w.pages = [] → w.offset = 0
  stop : ∀ q ∈ w.pages.getLast?, w.offset = q.stop
  returned : w.returned.map DirectoryEntry.child = w.pages.flatMap Cursor.Page.got
  single : ∀ p ∈ w.pages, ∀ x, p.items.count (some x) ≤ 1
  ended : w.done = true → ∃ q, w.pages.getLast? = some q ∧ q.items.length ≤ q.stop

theorem view_count_le_one {s : Vfs} (hs : s.ListsOnce) (io : Io) (x : Str) :
    (s.view cfg io dir).count (some x) ≤ 1 := by
  unfold Vfs.view
  cases hrun : (Vfs.readdir cfg io dir s).1 with
  | error e => simp
  | ok es =>
    have hnodup := readdir_nodup hs hrun
    have hsome : (es.map fun e => some e.name).Nodup := by
      have := hnodup.map (Option.some_injective Str)
      rwa [List.map_map] at this
    rw [List.count_cons_of_ne (by simp), List.count_cons_of_ne (by simp)]
    exact List.nodup_iff_count_le_one.mp hsome (some x)

theorem exec_keeps_listsOnce (ios : Nat → Io) (req : FuseRequest) {s : Vfs} (hs : s.ListsOnce) :
    (fs.exec cfg ios req s).2.ListsOnce :=
  (S3Fuse.keeps_exec (fun _ o => exec_listsOnce o) ios req).snd hs

/-- One more page, read from the offset on. -/
theorem Consistent.page {w : Walk} (h : w.Consistent) {s : Vfs} (hs : s.ListsOnce)
    {view : List (Option Str)} (hview : ∀ x, view.count (some x) ≤ 1) (got : List DirectoryEntry)
    {stop : Nat} (hforward : w.offset ≤ stop)
    (hgot : Cursor.Page.got ⟨view, w.offset, stop⟩ = got.map DirectoryEntry.child) (done : Bool)
    (hdone : done = true → view.length ≤ stop) :
    Consistent ⟨s, stop, w.returned ++ got, w.pages ++ [⟨view, w.offset, stop⟩], done⟩ where
  once := hs
  continues := h.continues.concat h.start h.stop hforward
  start := by
    intro hnil
    exact absurd hnil (by simp)
  stop := by
    intro q hq
    rw [List.getLast?_concat] at hq
    obtain rfl := Option.some.inj hq
    rfl
  returned := by
    rw [List.map_append, h.returned, List.flatMap_append, List.flatMap_singleton, hgot]
  single := by
    intro p hp x
    rcases List.mem_append.mp hp with hp | hp
    · exact h.single p hp x
    · rw [List.mem_singleton.mp hp]
      exact hview x
  ended := by
    intro hd
    exact ⟨_, List.getLast?_concat, hdone hd⟩

theorem step_consistent {w w' : Walk} {e : WalkEvent} (hstep : step fs cfg dir w e = some w')
    (h : w.Consistent) : w'.Consistent := by
  have hother : ∀ {s : Vfs}, s.ListsOnce → Consistent { w with vfs := s } := fun hs =>
    ⟨hs, h.continues, h.start, h.stop, h.returned, h.single, h.ended⟩
  cases e with
  | other e =>
    obtain rfl := Option.some.inj hstep
    exact hother (exec_keeps_listsOnce e.ios e.request h.once)
  | call ios taken =>
    have hview := fun x => @view_count_le_one cfg dir w.vfs h.once (ios 0) x
    have honce := @exec_keeps_listsOnce fs cfg ios (.readdir dir w.offset) w.vfs h.once
    simp only [step] at hstep
    split at hstep
    · cases hstep
    · rename_i hnot
      rcases exec_readdir fs cfg dir ios w.vfs w.offset with ⟨e, s, hrun⟩ | ⟨entries, s, hrun, hans⟩
      · rw [hrun] at hstep honce
        obtain rfl := Option.some.inj hstep
        exact hother honce
      · rw [hrun] at hstep honce
        cases entries with
        | nil =>
          obtain rfl := Option.some.inj hstep
          -- nothing is left behind the offset
          have hlen : (w.vfs.view cfg (ios 0) dir).length ≤ w.offset := by
            have hnil := hans.children
            rw [List.map_nil] at hnil
            exact List.drop_eq_nil_iff.mp hnil.symm
          have hpage := h.page honce hview [] (Nat.le_refl w.offset) (by simp [Cursor.Page.got]) true
            fun _ => hlen
          rw [List.append_nil] at hpage
          exact hpage
        | cons e es =>
          dsimp only at hstep
          split at hstep
          · cases hstep
          · rename_i last hlast
            obtain rfl := Option.some.inj hstep
            have hoff := hans.last hlast
            have hgot := hans.got (n := taken)
            rw [← hoff] at hgot
            exact h.page honce hview _ (by omega) hgot w.done fun hd => absurd hd hnot

theorem new_consistent (rootKey : Str) (bucket : Str → Option Stored) :
    Consistent { vfs := .new rootKey bucket } where
  once := new_listsOnce rootKey bucket
  continues := ⟨nofun, nofun, List.isChain_nil⟩
  start _ := rfl
  stop := nofun
  returned := rfl
  single := nofun
  ended := nofun

/-- **What a walk of a directory returns.** In every walk to the end, interleaved
with any other requests, a child that every call finds in the directory is returned
exactly once if and only if between calls it gets from behind the offset of the
next call to before it as often as the other way. -/
theorem walk_returns_once_iff (fs : S3Fuse) (cfg : VfsConfig) (rootKey : Str)
    (bucket : Str → Option Stored) (dir : Nat) (x : Str) (es : List WalkEvent) (w : Walk)
    (hrun : Machine.run (step fs cfg dir) { vfs := .new rootKey bucket } es = some w)
    (hdone : w.done = true) (hthere : ∀ p ∈ w.pages, some x ∈ p.items) :
    w.times x = 1 ↔ Cursor.skipped (some x) w.pages = Cursor.repeated (some x) w.pages := by
  have h : w.Consistent :=
    Machine.run_invariant (fun _ _ _ hstep hw => step_consistent hstep hw) hrun
      (new_consistent rootKey bucket)
  obtain ⟨q, hq, hend⟩ := h.ended hdone
  have hone : ∀ p ∈ w.pages, p.items.count (some x) = 1 := by
    intro p hp
    have hpos := List.count_pos_iff.mpr (hthere p hp)
    have hle := h.single p hp x
    omega
  rw [times, h.returned]
  exact Cursor.count_got_eq_one_iff h.continues hone hq hend

/-! ## A file removed during a walk -/

/-- A bucket with the three objects. -/
def threeObjects (key : Str) : Option Stored :=
  if key = "a".toList ∨ key = "b".toList ∨ key = "c".toList then some ⟨[], none⟩ else none

/-- A listing of the objects. -/
def listing (keys : List String) : Nat → Io := fun _ =>
  { list := keys.map fun k => { url := some (VfsConfig.sample.url k.toList), typ := .file } }

def rootFuse : S3Fuse := ⟨0, false, 0, 0⟩

/-- Two entries, then one, then the last two, with a file created behind them all. -/
def undisturbed : List WalkEvent :=
  [.call (listing ["a", "b", "c"]) 2, .call (listing ["a", "b", "c"]) 1,
    .other ⟨fun _ => {}, .create rootInode "d".toUTF8.toList⟩,
    .call (listing ["a", "b", "c"]) 2, .call (listing ["a", "b", "c"]) 9,
    .call (listing ["a", "b", "c"]) 9]

theorem walk_returns_once_undisturbed :
    ∃ w, Machine.run (step rootFuse .sample rootInode) { vfs := .new [] threeObjects } undisturbed =
      some w ∧ w.done = true ∧ (∀ p ∈ w.pages, some "b".toList ∈ p.items) ∧
      w.times "b".toList = 1 := by
  obtain ⟨w, hrun, hdone, hthere, hmoves⟩ : ∃ w,
      Machine.run (step rootFuse .sample rootInode) { vfs := .new [] threeObjects } undisturbed =
        some w ∧ w.done = true ∧ (∀ p ∈ w.pages, some "b".toList ∈ p.items) ∧
        Cursor.skipped (some "b".toList) w.pages = Cursor.repeated (some "b".toList) w.pages :=
    Machine.exists_run_of_any (by decide +kernel)
  refine ⟨w, hrun, hdone, hthere, ?_⟩
  exact (walk_returns_once_iff rootFuse .sample [] threeObjects rootInode "b".toList undisturbed w
    hrun hdone hthere).mpr hmoves

/-- The walker removes each file as soon as it has it. -/
def removing : List WalkEvent :=
  [.call (listing ["a", "b", "c"]) 3, .other ⟨fun _ => {}, .unlink rootInode "a".toUTF8.toList⟩,
    .call (listing ["b", "c"]) 9, .call (listing ["b", "c"]) 9]

/-- The second file is there all the time and is never returned. -/
theorem walk_misses_file :
    ∃ w, Machine.run (step rootFuse .sample rootInode) { vfs := .new [] threeObjects } removing =
      some w ∧ w.done = true ∧ (∀ p ∈ w.pages, some "b".toList ∈ p.items) ∧
      (w.vfs.bucket "b".toList).isSome = true ∧ w.times "b".toList = 0 :=
  Machine.exists_run_of_any (by decide +kernel)

end Walk

end Rs5cmd
