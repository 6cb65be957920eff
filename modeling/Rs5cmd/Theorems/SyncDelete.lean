import Rs5cmd.Theorems.SyncPlan
import Rs5cmd.Storage.S3.Server

/-!
# `sync --delete` and the objects of the source

Which destination objects a plan may delete although the source holds an object
at the same relative path. The source tree is described on its own, from the
objects of the bucket or the files the filesystem reports; `Collects` says which
of them the listing code sees and under which names.
-/

namespace Rs5cmd

open LexPath

/-! ## The source tree -/

/-- The files of a local source: the base directory the listing takes the path
relative to, and the URL of the file. -/
inductive SourceFile (fs : LocalFs) (src : Url) (follow : Bool) : Str → Url → Prop where
  | walked {entry : WalkEntry} {u : Url} (hw : src.isWildcard = false)
      (hroot : fs.shouldProcessUrl src.absolute follow = true)
      (hmem : .ok entry ∈ fs.walkDir src.absolute follow) (hkind : entry.kind = .file)
      (hproc : fs.shouldProcessUrl entry.path follow = true)
      (hu : Url.new entry.path {} = .ok u) (hfile : fs.IsFile u) :
      SourceFile fs src follow src.baseDir u
  | matched {found : List (Except Str Str)} {e : Str} {u : Url} (hw : src.isWildcard = true)
      (hglob : fs.glob src.absolute = .ok found) (he : .ok e ∈ found)
      (hu : Url.new e {} = .ok u) (hfile : fs.IsFile u) : SourceFile fs src follow src.baseDir u
  | below {found : List (Except Str Str)} {e : Str} {eu u : Url} {entry : WalkEntry}
      (hw : src.isWildcard = true) (hglob : fs.glob src.absolute = .ok found) (he : .ok e ∈ found)
      (heu : Url.new e {} = .ok eu) (hdir : fs.IsDir eu)
      (hroot : fs.shouldProcessUrl eu.absolute follow = true)
      (hmem : .ok entry ∈ fs.walkDir eu.absolute follow) (hkind : entry.kind = .file)
      (hproc : fs.shouldProcessUrl entry.path follow = true)
      (hu : Url.new entry.path {} = .ok u) (hfile : fs.IsFile u) :
      SourceFile fs src follow eu.baseDir u

/-- The part of a remote source up to its last slash before any wildcard. -/
def treeBase (src : Url) : Str := src.keyPrefix.rdropWhile (· != '/')

/-- The source tree contains an object at the relative path `r`: a matching key
after the tree's base, or a file below the source's directory. -/
def SourceAt (fs : LocalFs) (objs : List StoredObject) (src : Url) (follow : Bool) (r : Str) : Prop :=
  if src.isRemote then ∃ o ∈ objs, src.isMatch o.key = true ∧ o.key = treeBase src ++ r
  else ∃ base u, SourceFile fs src follow base u ∧ ∃ w : List Name,
    r = Str.join '/' (w.map Subtype.val) ∧ locOf u.absolute = (locOf src.baseDir).descend w

/-- The listing code collects some source object under the name `k`. A remote
object has to be covered by the listing request, its key has to match as the
server reports it, and it must not be skipped for its storage class; a local
file is named relative to the directory it was found from. -/
def Collects (enc : Str → Str) (fs : LocalFs) (objs : List StoredObject) (src : Url)
    (args : SyncArgs) (k : Str) : Prop :=
  if src.isRemote then
    ∃ o ∈ objs, (listV2Request src).Covers o.key ∧
      src.isMatch (percentDecode (enc o.key)) = true ∧
      skipGlacier o.storageClass args.forceGlacierTransfer = false ∧
      remoteKey src (percentDecode (enc o.key)) = k
  else ∃ base u, SourceFile fs src args.followSymlinks base u ∧ relPath base u.absolute = k

/-- The place at the relative path `r` of the destination. -/
def placeAt (dst : Url) (r : Str) : Place :=
  if dst.isRemote then .remote dst.bucket (listingKey dst ++ r) else .loc (pathJoin dst.path r)

/-! ## The source map holds what is collected -/

theorem contentObject_entry {src : Url} {enc : Str → Str} {o : StoredObject} {obj : Object} :
    contentObject src (o.entry enc) = some obj ↔
      ∃ u, src.listed (enc o.key) = some u ∧ obj =
        { url := some u, etag := trimQuotes o.etag, modTime := some (fromSecs o.lastModified),
          typ := .file, size := o.size, storageClass := o.storageClass } := by
  unfold contentObject StoredObject.entry
  rw [Option.map_eq_some_iff]
  simp only [Option.bind_some, Option.map_some, Option.getD_some]
  constructor
  · rintro ⟨u, hu, rfl⟩
    exact ⟨u, hu, rfl⟩
  · rintro ⟨u, hu, rfl⟩
    exact ⟨u, hu, rfl⟩

theorem newClient_remote {b : Backend} {src : Url} {client : Client} (hrem : src.isRemote = true)
    (h : b.newClient src = .ok client) : ∃ s3, b.newS3 src = .ok s3 ∧ client = .remote s3 := by
  rw [Backend.newClient, if_pos hrem] at h
  cases hs3 : b.newS3 src with
  | error e =>
    rw [hs3] at h
    cases h
  | ok s3 =>
    rw [hs3] at h
    exact ⟨s3, rfl, (Except.ok.inj h).symm⟩

theorem newClient_local {b : Backend} {src : Url} (hloc : src.isRemote = false) :
    b.newClient src = .ok (.loc b.fs) := by
  rw [Backend.newClient, if_neg (by simp [hloc])]

/-- A batch collection that succeeded ran over a listing without errors. -/
theorem collectSourceObjects_batch {b : Backend} {src : Url} {args : SyncArgs} {filters : Filters}
    {source : ObjectMap} (h : collectSourceObjects b src args true filters = .ok source) :
    ∃ client, b.newClient src = .ok client ∧
      (∀ obj ∈ client.list src args.followSymlinks, obj.err = none) ∧
      ∀ k, k ∈ source ↔ ∃ obj ∈ client.list src args.followSymlinks,
        ∃ u, keptKey filters args.forceGlacierTransfer obj = some (k, u) := by
  unfold collectSourceObjects at h
  cases hc : b.newClient src with
  | error e =>
    rw [hc] at h
    cases h
  | ok client =>
    rw [hc] at h
    obtain ⟨hall, -, hmem⟩ := collectListed_ok (show collectListed b.fs src filters args.checksum
      args.forceGlacierTransfer (client.list src args.followSymlinks) ∅ = .ok source from h)
    exact ⟨client, rfl, hall, fun k => by rw [hmem k]; simp⟩

theorem mem_source_remote {enc : Str → Str} {objs : List StoredObject} {s3 : S3} {src : Url}
    (hserve : Serves enc objs s3 src) (hv : src.isVersioned = false) (hrem : src.isRemote = true)
    {filters : Filters} {args : SyncArgs} {fs : LocalFs}
    (hall : ∀ obj ∈ s3.list src, obj.err = none) (k : Str) :
    (∃ obj ∈ s3.list src, ∃ u, keptKey filters args.forceGlacierTransfer obj = some (k, u)) ↔
      Collects enc fs objs src args k ∧ filters.shouldSkip k = false := by
  rw [Collects, if_pos hrem]
  constructor
  · rintro ⟨obj, hmem, u, hkept⟩
    obtain ⟨hdir, hglacier, hu, hrel, hskip⟩ := keptKey_eq_some.mp hkept
    obtain ⟨o, ho, hcov, hobj⟩ := (mem_list_of_serves hserve hv (hall obj hmem) hdir).mp hmem
    obtain ⟨v, hv', rfl⟩ := contentObject_entry.mp hobj
    obtain rfl : v = u := Option.some.inj hu
    obtain ⟨hmatch, rfl⟩ := Url.listed_eq_some.mp hv'
    exact ⟨⟨o, ho, hcov, hmatch, hglacier, hrel⟩, hskip⟩
  · rintro ⟨⟨o, ho, hcov, hmatch, hglacier, hrel⟩, hskip⟩
    have hlisted := Url.listed_eq_some.mpr ⟨hmatch, rfl⟩
    have hobj := contentObject_entry.mpr ⟨_, hlisted, rfl⟩
    exact ⟨_, (mem_list_of_serves hserve hv rfl rfl).mpr ⟨o, ho, hcov, hobj⟩, _,
      keptKey_eq_some.mpr ⟨rfl, hglacier, rfl, hrel, hskip⟩⟩

/-- What is kept of a file that was found and taken relative to `base`. -/
theorem keptKey_stat {fs : LocalFs} {u base v : Url} {obj : Object} {filters : Filters}
    {force : Bool} {k : Str} (h : fs.statSync (u.setRelative base) = .ok obj) :
    keptKey filters force obj = some (k, v) ↔
      fs.IsFile u ∧ v = u.setRelative base ∧ relPath base.baseDir u.absolute = k ∧
        filters.shouldSkip k = false := by
  obtain ⟨-, hfile, hclass⟩ := LocalFs.statSync_cases h
  have hurl := (LocalFs.statSync_err h).2
  have hglacier : skipGlacier obj.storageClass force = false := by
    rw [hclass, skipGlacier, show isGlacier [] = false from rfl, Bool.and_false]
  rw [keptKey_eq_some, hurl, ← relative_setRelative]
  constructor
  · rintro ⟨hdir, -, hv, hrel, hskip⟩
    obtain rfl := Option.some.inj hv
    exact ⟨hfile.mp hdir, rfl, hrel, hskip⟩
  · rintro ⟨hf, rfl, hrel, hskip⟩
    exact ⟨hfile.mpr hf, hglacier, rfl, hrel, hskip⟩

/-- What is kept of a walk. -/
theorem kept_walk_iff {fs : LocalFs} {src : Url} {follow : Bool}
    (hall : ∀ obj ∈ fs.walk src follow, obj.err = none) {filters : Filters} {force : Bool} {k : Str} :
    (∃ obj ∈ fs.walk src follow, ∃ v, keptKey filters force obj = some (k, v)) ↔
      fs.shouldProcessUrl src.absolute follow = true ∧ ∃ entry u,
        .ok entry ∈ fs.walkDir src.absolute follow ∧ entry.kind = .file ∧
        fs.shouldProcessUrl entry.path follow = true ∧ Url.new entry.path {} = .ok u ∧
        fs.IsFile u ∧ relPath src.baseDir u.absolute = k ∧ filters.shouldSkip k = false := by
  unfold LocalFs.walk at hall ⊢
  by_cases hroot : fs.shouldProcessUrl src.absolute follow = true
  · simp only [hroot, Bool.not_true, Bool.false_eq_true, if_false, true_and] at hall ⊢
    constructor
    · rintro ⟨obj, hmem, v, hkept⟩
      obtain ⟨entry, u, hentry, hkind, hu, hproc, hstat⟩ :=
        LocalFs.mem_walkEntries hmem (hall obj hmem)
      obtain ⟨hfile, -, hrel, hskip⟩ := (keptKey_stat hstat).mp hkept
      exact ⟨entry, u, hentry, hkind, hproc, hu, hfile, hrel, hskip⟩
    · rintro ⟨entry, u, hentry, hkind, hproc, hu, hfile, hrel, hskip⟩
      obtain ⟨obj, hmem, hstat⟩ := LocalFs.exists_mem_walkEntries hall hentry hkind hproc hu
      exact ⟨obj, hmem, _, (keptKey_stat hstat).mpr ⟨hfile, rfl, hrel, hskip⟩⟩
  · simp [hroot]

theorem mem_source_local {fs : LocalFs} {src : Url} (hloc : src.isRemote = false) {args : SyncArgs}
    {filters : Filters} {enc : Str → Str} {objs : List StoredObject}
    (hbatch : src.isWildcard = true ∨ ∃ obj, fs.statSync src = .ok obj ∧ obj.typ.isDir = true)
    (hall : ∀ obj ∈ fs.list src args.followSymlinks, obj.err = none) (k : Str) :
    (∃ obj ∈ fs.list src args.followSymlinks,
        ∃ u, keptKey filters args.forceGlacierTransfer obj = some (k, u)) ↔
      Collects enc fs objs src args k ∧ filters.shouldSkip k = false := by
  rw [Collects, if_neg (by simp [hloc])]
  unfold LocalFs.list at hall ⊢
  by_cases hw : src.isWildcard = true
  · simp only [hw, if_true] at hall ⊢
    unfold LocalFs.expandGlob at hall ⊢
    cases hglob : fs.glob src.absolute with
    | error e =>
      rw [hglob] at hall
      have := hall _ (List.mem_singleton_self _)
      cases this
    | ok found =>
      simp only [hglob] at hall ⊢
      have hall' : ∀ obj ∈ fs.globEntries src args.followSymlinks found, obj.err = none :=
        fun obj h => hall obj (List.mem_append_left _ h)
      constructor
      · rintro ⟨obj, hmem, v, hkept⟩
        have hmem' : obj ∈ fs.globEntries src args.followSymlinks found := by
          rcases List.mem_append.mp hmem with h | h
          · exact h
          · have herr := hall obj hmem
            split at h
            · rw [List.mem_singleton.mp h] at herr
              cases herr
            · simp at h
        obtain ⟨e, eu, dir, he, heu, hstat, hcase⟩ :=
          LocalFs.mem_globEntries hmem' (hall' obj hmem')
        rcases hcase with ⟨-, rfl⟩ | ⟨hdir, hwalk⟩
        · obtain ⟨hfile, -, hrel, hskip⟩ := (keptKey_stat hstat).mp hkept
          exact ⟨⟨_, eu, .matched hw hglob he heu hfile, hrel⟩, hskip⟩
        · have hisdir : fs.IsDir eu := (LocalFs.statSync_cases hstat).1.mp hdir
          obtain ⟨eu', dir', heu', hstat', hcase'⟩ := LocalFs.exists_mem_globEntries hall' he
          rw [heu] at heu'
          obtain rfl := Except.ok.inj heu'
          rw [hstat] at hstat'
          obtain rfl := Except.ok.inj hstat'
          have hsub := (hcase'.resolve_left fun h => by rw [hdir] at h; cases h.1).2
          obtain ⟨hroot, entry, u, hentry, hkind, hproc, hu, hfile, hrel, hskip⟩ :=
            (kept_walk_iff fun o ho => hall' o (hsub o ho)).mp ⟨obj, hwalk, v, hkept⟩
          exact ⟨⟨_, u, .below hw hglob he heu hisdir hroot hentry hkind hproc hu hfile, hrel⟩, hskip⟩
      · rintro ⟨⟨base, u, hsf, hrel⟩, hskip⟩
        cases hsf with
        | walked hw' => exact absurd hw (by simp [hw'])
        | matched _ hglob' he hu hfile =>
          rw [hglob] at hglob'
          obtain rfl := Except.ok.inj hglob'
          obtain ⟨u', dir, hu', hstat, hcase⟩ := LocalFs.exists_mem_globEntries hall' he
          rw [hu] at hu'
          obtain rfl := Except.ok.inj hu'
          have hno : dir.typ.isDir = false := (LocalFs.statSync_cases hstat).2.1.mpr hfile
          have hmem := (hcase.resolve_right fun h => by rw [hno] at h; cases h.1).2
          exact ⟨dir, List.mem_append_left _ hmem, _,
            (keptKey_stat hstat).mpr ⟨hfile, rfl, hrel, hskip⟩⟩
        | below _ hglob' he heu hdir hroot hentry hkind hproc hu hfile =>
          rw [hglob] at hglob'
          obtain rfl := Except.ok.inj hglob'
          obtain ⟨eu', dir, heu', hstat, hcase⟩ := LocalFs.exists_mem_globEntries hall' he
          rw [heu] at heu'
          obtain rfl := Except.ok.inj heu'
          have hyes : dir.typ.isDir = true := (LocalFs.statSync_cases hstat).1.mpr hdir
          have hsub := (hcase.resolve_left fun h => by rw [hyes] at h; cases h.1).2
          obtain ⟨obj, hmem, v, hkept⟩ : ∃ obj ∈ fs.walk (Url.setRelative _ src) args.followSymlinks,
              ∃ v, keptKey filters args.forceGlacierTransfer obj = some (k, v) :=
            (kept_walk_iff fun o ho => hall' o (hsub o ho)).mpr
              ⟨hroot, _, u, hentry, hkind, hproc, hu, hfile, hrel, hskip⟩
          exact ⟨obj, List.mem_append_left _ (hsub obj hmem), v, hkept⟩
  · have hw' : src.isWildcard = false := by simpa using hw
    obtain ⟨dir, hstat, hdir⟩ := hbatch.resolve_left hw
    simp only [hw', Bool.false_eq_true, if_false, hstat, hdir, if_true] at hall ⊢
    rw [kept_walk_iff hall]
    constructor
    · rintro ⟨hroot, entry, u, hentry, hkind, hproc, hu, hfile, hrel, hskip⟩
      exact ⟨⟨_, u, .walked hw' hroot hentry hkind hproc hu hfile, hrel⟩, hskip⟩
    · rintro ⟨⟨base, u, hsf, hrel⟩, hskip⟩
      cases hsf with
      | walked _ hroot hmem hkind hproc hu hfile =>
        exact ⟨hroot, _, u, hmem, hkind, hproc, hu, hfile, hrel, hskip⟩
      | matched hyes => exact absurd hyes hw
      | below hyes => exact absurd hyes hw

/-- **The names of the source map** are the unfiltered names that are collected. -/
theorem mem_source_iff {enc : Str → Str} {objs : List StoredObject} {bs : Backend} {raw : Str}
    {src : Url} {args : SyncArgs} {filters : Filters} {source : ObjectMap}
    (hsrc : Url.parse raw = .ok src) (hb : isSourceBatch bs src = .ok true)
    (hs : collectSourceObjects bs src args true filters = .ok source)
    (hserve : ∀ s3, src.isRemote = true → bs.newS3 src = .ok s3 → Serves enc objs s3 src) (k : Str) :
    k ∈ source ↔ Collects enc bs.fs objs src args k ∧ filters.shouldSkip k = false := by
  obtain ⟨client, hclient, hall, hmem⟩ := collectSourceObjects_batch hs
  rw [hmem k]
  cases hrem : src.isRemote with
  | true =>
    obtain ⟨s3, hs3, rfl⟩ := newClient_remote hrem hclient
    exact mem_source_remote (hserve s3 hrem hs3) (not_versioned_of_new hsrc) hrem hall k
  | false =>
    rw [newClient_local hrem] at hclient
    obtain rfl := Except.ok.inj hclient
    refine mem_source_local hrem ?_ hall k
    by_cases hw : src.isWildcard = true
    · exact Or.inl hw
    · right
      simp only [isSourceBatch, hw, hrem, newClient_local hrem, Bool.false_eq_true, if_false, bind,
        Except.bind, Client.stat] at hb
      split at hb
      · rename_i obj hobj
        exact ⟨obj, hobj, Except.ok.inj hb⟩
      · cases hb

/-! ## Deletions and the source tree -/

/-- **Deletion soundness, exactly.** For a batch source no destination content
makes `sync` delete the object at a relative path at which the source tree
contains an object iff every unfiltered relative path under which the
destination listing can report that place is the name under which some source
object is collected. -/
theorem sync_delete_sound_iff (g : GlobCrate) (enc : Str → Str) (objs : List StoredObject)
    (bs : Backend) (raw : Str) (src dst : Url) (args : SyncArgs) (filters : Filters)
    (source : ObjectMap) (hsrc : Url.parse raw = .ok src) (hb : isSourceBatch bs src = .ok true)
    (hs : collectSourceObjects bs src args true filters = .ok source)
    (hserve : ∀ s3, src.isRemote = true → bs.newS3 src = .ok s3 → Serves enc objs s3 src) :
    (∀ (bd : Backend) (plan : SyncPlan), bd.fs.Conforms g →
        syncGroups bs bd src dst args filters = .ok plan →
        ∀ u ∈ plan.toDelete, ∀ r, SourceAt bs.fs objs src args.followSymlinks r →
          u.place ≠ placeAt dst r) ↔
      (args.delete = true → ∀ r, SourceAt bs.fs objs src args.followSymlinks r →
        ∀ k, Reports g dst k (placeAt dst r) → filters.shouldSkip k = false →
          Collects enc bs.fs objs src args k) := by
  have hmem := mem_source_iff hsrc hb hs hserve
  constructor
  · intro hsound hdel r hr k hrep hskip
    by_contra hcol
    have hk : k ∉ source := fun h => hcol ((hmem k).mp h).1
    obtain ⟨bd, plan, obj, u, hconf, hgroups, -, hu, hplace⟩ :=
      exists_deletion hb hs hdel hrep hskip hk
    exact hsound bd plan hconf hgroups u hu r hr hplace
  · intro hcond bd plan hconf hgroups u hu r hr hplace
    obtain ⟨hdel, k, hrep, hskip, hk⟩ := reports_of_toDelete hconf hs hb hgroups hu
    rw [hplace] at hrep
    exact hk ((hmem k).mpr ⟨hcond hdel r hr k hrep hskip, hskip⟩)

/-- A bucket with one object of the given storage class, served as one page. -/
def oneObject (key storageClass : String) : List StoredObject :=
  [{ key := key.toList, storageClass := storageClass.toList }]

def Backend.ofObjects (objs : List StoredObject) : Backend :=
  .ofPages [.ok { contents := objs.map (StoredObject.entry id) }]

theorem serves_ofObjects {objs : List StoredObject} {src : Url}
    (hcov : ∀ o ∈ objs, (listV2Request src).Covers o.key) :
    Serves id objs (.ofPages [.ok { contents := objs.map (StoredObject.entry id) }]) src := by
  refine ⟨[{ contents := objs.map (StoredObject.entry id) }], fun c => ?_, rfl⟩
  constructor
  · rintro ⟨page, hpage, hc⟩
    rw [List.mem_singleton.mp hpage] at hc
    obtain ⟨o, ho, rfl⟩ := List.mem_map.mp hc
    exact ⟨o, ho, hcov o ho, rfl⟩
  · rintro ⟨o, ho, -, rfl⟩
    exact ⟨_, List.mem_singleton_self _, List.mem_map_of_mem ho⟩

/-- A listing without prefix and delimiter covers every key. -/
theorem covers_all {src : Url} (hp : src.keyPrefix = []) (hd : src.delimiter = []) (key : Str) :
    (listV2Request src).Covers key := by
  refine ⟨by simp [listV2Request, hp], fun d hsome => ?_⟩
  simp [listV2Request, hd, nonEmpty] at hsome

/-- `sync --delete s3://b/* s3://c` deletes `a.txt` from the destination although
the source contains `a.txt`, an object of class GLACIER. -/
theorem sync_delete_unsound :
    Serves id (oneObject "a.txt" "GLACIER")
        (.ofPages [.ok { contents := (oneObject "a.txt" "GLACIER").map (StoredObject.entry id) }])
        (.ofString "s3://b/*") ∧
      SourceAt .empty (oneObject "a.txt" "GLACIER") (.ofString "s3://b/*") true "a.txt".toList ∧
      ∃ u ∈ (okD (syncGroups (.ofObjects (oneObject "a.txt" "GLACIER")) (.ofKeys ["a.txt"])
          (.ofString "s3://b/*") (.ofString "s3://c") { delete := true } noFilters) ⟨[], []⟩).toDelete,
        u.place = placeAt (.ofString "s3://c") "a.txt".toList := by
  refine ⟨serves_ofObjects fun o _ => covers_all (by decide +kernel) (by decide +kernel) o.key, ?_,
    by decide +kernel⟩
  rw [SourceAt, if_pos (by decide +kernel)]
  exact ⟨_, List.mem_singleton_self _, by decide +kernel, by decide +kernel⟩

/-- The same object of class STANDARD keeps its copy. -/
theorem sync_delete_sound_standard :
    SourceAt .empty (oneObject "a.txt" "STANDARD") (.ofString "s3://b/*") true "a.txt".toList ∧
      ∀ (bd : Backend) (plan : SyncPlan), bd.fs.Conforms .any →
        syncGroups (.ofObjects (oneObject "a.txt" "STANDARD")) bd (.ofString "s3://b/*")
          (.ofString "s3://c") { delete := true } noFilters = .ok plan →
        ∀ u ∈ plan.toDelete, ∀ r,
          SourceAt .empty (oneObject "a.txt" "STANDARD") (.ofString "s3://b/*") true r →
            u.place ≠ placeAt (.ofString "s3://c") r := by
  have hsrcAt : ∀ r, SourceAt .empty (oneObject "a.txt" "STANDARD") (.ofString "s3://b/*") true r ↔
      r = "a.txt".toList := by
    intro r
    rw [SourceAt, if_pos (by decide +kernel)]
    have hbase : treeBase (.ofString "s3://b/*") = [] := by decide +kernel
    constructor
    · rintro ⟨o, ho, -, hkey⟩
      rw [List.mem_singleton.mp ho, hbase] at hkey
      exact hkey.symm
    · rintro rfl
      exact ⟨_, List.mem_singleton_self _, by decide +kernel, by rw [hbase]; rfl⟩
  refine ⟨(hsrcAt _).mpr rfl, ?_⟩
  have hs := eq_ok_okD (r := collectSourceObjects (.ofObjects (oneObject "a.txt" "STANDARD"))
    (.ofString "s3://b/*") { delete := true } true noFilters) ∅ (by decide +kernel)
  refine (sync_delete_sound_iff .any id (oneObject "a.txt" "STANDARD") _ "s3://b/*".toList _ _ _ _ _
    (by decide +kernel) (by decide +kernel) hs ?_).mpr ?_
  · intro s3 _ hs3
    obtain rfl := Except.ok.inj hs3
    exact serves_ofObjects fun o _ => covers_all (by decide +kernel) (by decide +kernel) o.key
  · intro _ r hr k hrep _
    obtain rfl := (hsrcAt r).mp hr
    have hk : k = "a.txt".toList := by
      rw [placeAt, if_pos (by decide +kernel)] at hrep
      have hparse : Url.parse "s3://c".toList = .ok (.ofString "s3://c") := by decide +kernel
      exact reports_remote_literal hparse (by decide +kernel) (by decide +kernel) (by decide) hrep
    rw [Collects, if_pos (by decide +kernel), hk]
    exact ⟨_, List.mem_singleton_self _, covers_all (by decide +kernel) (by decide +kernel) _,
      by decide +kernel, by decide +kernel, by decide +kernel⟩

end Rs5cmd
