import Rs5cmd.Storage.S3.List

/-!
# The local filesystem (`storage/fs.rs`)

`stat`, globbing and directory walks over a filesystem. What the operating
system, the `glob` crate and the `walkdir` crate answer is a parameter
(`LocalFs`); what the listing code makes of the answers is modelled.
-/

namespace Rs5cmd

/-- A file type, as `std::fs::FileType` tells them apart. -/
inductive FileKind where
  | file
  | dir
  | symlink
  | special
  deriving DecidableEq, Repr

structure FileMeta where
  kind : FileKind
  len : Nat
  modified : Option Int
  deriving DecidableEq, Repr

/-- An I/O error: `ErrorKind::NotFound`, or another kind with its text. -/
inductive IoError where
  | notFound (text : Str)
  | other (text : Str)
  deriving DecidableEq, Repr

/-- An entry `walkdir` yields. With `follow_links` its type is the target's. -/
structure WalkEntry where
  path : Str
  kind : FileKind
  deriving DecidableEq, Repr

/-- A walk error: the path it is about, if known, and its text. -/
structure WalkError where
  path : Option Str
  text : Str
  deriving DecidableEq, Repr

/-- The answers of the operating system and of the path crates. -/
structure LocalFs where
  symlinkMetadata : Str → Except IoError FileMeta
  metadata : Str → Except IoError FileMeta
  glob : Str → Except Str (List (Except Str Str))
  walkDir : Str → Bool → List (Except WalkError WalkEntry)
  md5Hex : Str → Option Str

/-- The characters `glob` gives a meaning to. -/
def isGlobMeta (c : Char) : Bool := c == '*' || c == '?' || c == '['

/-- What the `glob` crate promises about the paths it yields for a pattern: for
`dir/*` without further wildcards they are entries of `dir`, each spelled as a
directory without wildcards or doubled slashes followed by the entry's name. -/
structure GlobCrate where
  yields : Str → Str → Prop
  literal : ∀ dir e, dir.any isGlobMeta = false → Str.endsWith '/' dir = true →
    yields (dir ++ ['*']) e → ∃ parent name, e = parent ++ name ∧ '/' ∉ name ∧
      parent.any isGlobMeta = false ∧ ¬ ['/', '/'] <:+: parent ∧
      (parent = [] ∨ Str.endsWith '/' parent = true) ∧ cleanPath parent = cleanPath dir

/-- The most permissive crate within the promise. -/
def GlobCrate.any : GlobCrate where
  yields pattern e := ∀ dir, dir.any isGlobMeta = false → Str.endsWith '/' dir = true →
    pattern = dir ++ ['*'] → ∃ parent name, e = parent ++ name ∧ '/' ∉ name ∧
      parent.any isGlobMeta = false ∧ ¬ ['/', '/'] <:+: parent ∧
      (parent = [] ∨ Str.endsWith '/' parent = true) ∧ cleanPath parent = cleanPath dir
  literal dir _ hlit hslash h := h dir hlit hslash rfl

/-- The filesystem answers within what the path crates promise: a glob yields
paths of its pattern, and a walk stays below its root. -/
structure LocalFs.Conforms (fs : LocalFs) (g : GlobCrate) : Prop where
  glob : ∀ pattern found e, fs.glob pattern = .ok found → .ok e ∈ found → g.yields pattern e
  walk : ∀ root follow entry, .ok entry ∈ fs.walkDir root follow →
    LexPath.Inside (locOf root) (locOf entry.path)

/-! ## Stat -/

/-- `stat_sync`: the type is the entry's own, size and time follow links. -/
def LocalFs.statSync (fs : LocalFs) (u : Url) : Except StorageError Object :=
  let abs := u.absolute
  match fs.symlinkMetadata abs with
  | .error (.notFound _) => .error (.objectNotFound abs)
  | .error (.other text) => .error (.msg text)
  | .ok own =>
    let typ : ObjectType :=
      match own.kind with
      | .symlink => .symlink
      | .dir => .dir
      | _ => .file
    let followed :=
      match fs.metadata abs with
      | .ok m => m
      | .error _ => own
    .ok { url := some u, typ := typ, size := followed.len, modTime := followed.modified }

/-- `should_process_url`. -/
def LocalFs.shouldProcessUrl (fs : LocalFs) (path : Str) (followSymlinks : Bool) : Bool :=
  followSymlinks ||
    match fs.symlinkMetadata path with
    | .ok m => m.kind != .symlink
    | .error _ => false

/-! ## Walking a directory -/

/-- The entries of a walk, in turn. A walk error is sent and the walk goes on;
a stat error is sent and ends it. -/
def LocalFs.walkEntries (fs : LocalFs) (src : Url) (followSymlinks : Bool) :
    List (Except WalkError WalkEntry) → List Object
  | [] => []
  | .error e :: rest =>
    Object.withError (.msg ("skipping broken symlink or unreadable path ".toList ++
      e.path.getD src.absolute ++ ": ".toList ++ e.text)) ::
      fs.walkEntries src followSymlinks rest
  | .ok entry :: rest =>
    -- directories, sockets, pipes and devices are skipped
    if entry.kind ≠ .file then fs.walkEntries src followSymlinks rest
    else
      match Url.new entry.path {} with
      | .error e =>
        Object.withError (.msg ("skipping ".toList ++ entry.path ++
          ": could not build url: ".toList ++ e)) :: fs.walkEntries src followSymlinks rest
      | .ok fileurl =>
        let fileurl := fileurl.setRelative src
        if !fs.shouldProcessUrl entry.path followSymlinks then
          fs.walkEntries src followSymlinks rest
        else
          match fs.statSync fileurl with
          | .ok obj => obj :: fs.walkEntries src followSymlinks rest
          | .error e => [Object.withError e]

/-- `walk_dir`. -/
def LocalFs.walk (fs : LocalFs) (src : Url) (followSymlinks : Bool) : List Object :=
  if !fs.shouldProcessUrl src.absolute followSymlinks then []
  else fs.walkEntries src followSymlinks (fs.walkDir src.absolute followSymlinks)

/-! ## Expanding a glob -/

/-- One character of a `{:?}` string. -/
def debugChar (c : Char) : Str :=
  if c = '"' then ['\\', '"']
  else if c = '\\' then ['\\', '\\']
  else if c = '\n' then ['\\', 'n']
  else if c = '\r' then ['\\', 'r']
  else if c = '\t' then ['\\', 't']
  else if c = '\x00' then ['\\', '0']
  else if c.toNat < 32 || c.toNat = 127 then
    ['\\', 'u', '\x7b'] ++ Nat.toDigits 16 c.toNat ++ ['\x7d']
  else [c]

/-- `format!("{s:?}")`. -/
def debugStr (s : Str) : Str := '"' :: s.flatMap debugChar ++ ['"']

/-- The matches of a glob, in turn: a directory is walked, anything else is
sent, and the first error ends the expansion. -/
def LocalFs.globEntries (fs : LocalFs) (src : Url) (followSymlinks : Bool) :
    List (Except Str Str) → List Object
  | [] => []
  | .error e :: _ => [Object.withError (.msg e)]
  | .ok path :: rest =>
    match Url.new path {} with
    | .error e => [Object.withError (.msg e)]
    | .ok fileurl =>
      let fileurl := fileurl.setRelative src
      match fs.statSync fileurl with
      | .error e => [Object.withError e]
      | .ok obj =>
        if !obj.typ.isDir then obj :: fs.globEntries src followSymlinks rest
        else fs.walk fileurl followSymlinks ++ fs.globEntries src followSymlinks rest

/-- `expand_glob`. -/
def LocalFs.expandGlob (fs : LocalFs) (src : Url) (followSymlinks : Bool) : List Object :=
  match fs.glob src.absolute with
  | .error e => [Object.withError (.msg e)]
  | .ok found =>
    fs.globEntries src followSymlinks found ++
      if found.isEmpty then
        [Object.withError (.msg ("no match found for ".toList ++ debugStr src.absolute))]
      else []

/-- `Filesystem::list`. -/
def LocalFs.list (fs : LocalFs) (src : Url) (followSymlinks : Bool) : List Object :=
  if src.isWildcard then fs.expandGlob src followSymlinks
  else
    match fs.statSync src with
    | .ok obj => if obj.typ.isDir then fs.walk src followSymlinks else [obj]
    | .error e => [Object.withError e]

/-! ## What a listing contains -/

theorem LocalFs.statSync_err {fs : LocalFs} {u : Url} {obj : Object} (h : fs.statSync u = .ok obj) :
    obj.err = none ∧ obj.url = some u := by
  unfold LocalFs.statSync at h
  dsimp only at h
  split at h
  · cases h
  · cases h
  · rw [← Except.ok.inj h]
    exact ⟨rfl, rfl⟩

/-- A file of a walk: an entry of the walk that is a regular file, taken relative
to the walk's root. -/
theorem LocalFs.mem_walkEntries {fs : LocalFs} {src : Url} {follow : Bool}
    {entries : List (Except WalkError WalkEntry)} {obj : Object}
    (h : obj ∈ fs.walkEntries src follow entries) (herr : obj.err = none) :
    ∃ entry u, .ok entry ∈ entries ∧ entry.kind = .file ∧ Url.new entry.path {} = .ok u ∧
      fs.shouldProcessUrl entry.path follow = true ∧ fs.statSync (u.setRelative src) = .ok obj := by
  induction entries with
  | nil => simp [LocalFs.walkEntries] at h
  | cons e rest ih =>
    have hrest : obj ∈ fs.walkEntries src follow rest → ∃ entry u, .ok entry ∈ e :: rest ∧
        entry.kind = .file ∧ Url.new entry.path {} = .ok u ∧
        fs.shouldProcessUrl entry.path follow = true ∧
        fs.statSync (u.setRelative src) = .ok obj := by
      intro h
      obtain ⟨entry, u, hmem, hrest⟩ := ih h
      exact ⟨entry, u, List.mem_cons_of_mem _ hmem, hrest⟩
    cases e with
    | error e =>
      rcases List.mem_cons.mp h with rfl | h
      · cases herr
      · exact hrest h
    | ok entry =>
      unfold LocalFs.walkEntries at h
      split at h
      · exact hrest h
      · rename_i hkind
        split at h
        · rcases List.mem_cons.mp h with rfl | h
          · cases herr
          · exact hrest h
        · rename_i u hu
          dsimp only at h
          split at h
          · exact hrest h
          · rename_i hproc
            split at h
            · rename_i o ho
              rcases List.mem_cons.mp h with rfl | h
              · exact ⟨entry, u, List.mem_cons_self, by simpa using hkind, hu, by simpa using hproc,
                  ho⟩
              · exact hrest h
            · rw [List.mem_singleton.mp h] at herr
              cases herr

/-- An object of a glob expansion: a match that is no directory, or a file of
the walk of a match that is one. -/
theorem LocalFs.mem_globEntries {fs : LocalFs} {src : Url} {follow : Bool}
    {found : List (Except Str Str)} {obj : Object} (h : obj ∈ fs.globEntries src follow found)
    (herr : obj.err = none) :
    ∃ e u dir, .ok e ∈ found ∧ Url.new e {} = .ok u ∧ fs.statSync (u.setRelative src) = .ok dir ∧
      ((dir.typ.isDir = false ∧ obj = dir) ∨
        (dir.typ.isDir = true ∧ obj ∈ fs.walk (u.setRelative src) follow)) := by
  induction found with
  | nil => simp [LocalFs.globEntries] at h
  | cons e rest ih =>
    have hrest : obj ∈ fs.globEntries src follow rest → ∃ e' u dir, .ok e' ∈ e :: rest ∧
        Url.new e' {} = .ok u ∧ fs.statSync (u.setRelative src) = .ok dir ∧
        ((dir.typ.isDir = false ∧ obj = dir) ∨
          (dir.typ.isDir = true ∧ obj ∈ fs.walk (u.setRelative src) follow)) := by
      intro h
      obtain ⟨e', u, dir, hmem, hrest⟩ := ih h
      exact ⟨e', u, dir, List.mem_cons_of_mem _ hmem, hrest⟩
    cases e with
    | error e =>
      rw [List.mem_singleton.mp h] at herr
      cases herr
    | ok path =>
      unfold LocalFs.globEntries at h
      split at h
      · rw [List.mem_singleton.mp h] at herr
        cases herr
      · rename_i u hu
        dsimp only at h
        split at h
        · rw [List.mem_singleton.mp h] at herr
          cases herr
        · rename_i dir hdir
          split at h
          · rename_i hno
            rcases List.mem_cons.mp h with rfl | h
            · exact ⟨path, u, _, List.mem_cons_self, hu, hdir, Or.inl ⟨by simpa using hno, rfl⟩⟩
            · exact hrest h
          · rename_i hyes
            rcases List.mem_append.mp h with h | h
            · exact ⟨path, u, dir, List.mem_cons_self, hu, hdir, Or.inr ⟨by simpa using hyes, h⟩⟩
            · exact hrest h

/-- What the listing code takes for a directory. -/
def LocalFs.IsDir (fs : LocalFs) (u : Url) : Prop :=
  ∃ m, fs.symlinkMetadata u.absolute = .ok m ∧ m.kind = .dir

/-- What the listing code takes for something other than a directory. -/
def LocalFs.IsFile (fs : LocalFs) (u : Url) : Prop :=
  ∃ m, fs.symlinkMetadata u.absolute = .ok m ∧ m.kind ≠ .dir

/-- A stat that succeeds tells directories from files by the entry's own type;
local objects have no storage class. -/
theorem LocalFs.statSync_cases {fs : LocalFs} {u : Url} {obj : Object}
    (h : fs.statSync u = .ok obj) :
    (obj.typ.isDir = true ↔ fs.IsDir u) ∧ (obj.typ.isDir = false ↔ fs.IsFile u) ∧
      obj.storageClass = [] := by
  unfold LocalFs.statSync at h
  unfold LocalFs.IsDir LocalFs.IsFile
  dsimp only at h
  split at h
  · cases h
  · cases h
  · rename_i own hown
    rw [hown, ← Except.ok.inj h]
    cases hk : own.kind <;> simp [ObjectType.isDir, hk]

/-- A walk without errors sends every regular file it meets. -/
theorem LocalFs.exists_mem_walkEntries {fs : LocalFs} {src : Url} {follow : Bool}
    {entries : List (Except WalkError WalkEntry)}
    (hall : ∀ obj ∈ fs.walkEntries src follow entries, obj.err = none) {entry : WalkEntry} {u : Url}
    (hmem : .ok entry ∈ entries) (hkind : entry.kind = .file)
    (hproc : fs.shouldProcessUrl entry.path follow = true) (hu : Url.new entry.path {} = .ok u) :
    ∃ obj ∈ fs.walkEntries src follow entries, fs.statSync (u.setRelative src) = .ok obj := by
  induction entries with
  | nil => simp at hmem
  | cons e rest ih =>
    cases e with
    | error e =>
      have := hall _ List.mem_cons_self
      cases this
    | ok e =>
      have hstep : fs.walkEntries src follow (.ok e :: rest) =
          if e.kind ≠ .file then fs.walkEntries src follow rest
          else match Url.new e.path {} with
            | .error err => Object.withError (.msg ("skipping ".toList ++ e.path ++
                ": could not build url: ".toList ++ err)) :: fs.walkEntries src follow rest
            | .ok fileurl =>
              if !fs.shouldProcessUrl e.path follow then fs.walkEntries src follow rest
              else match fs.statSync (fileurl.setRelative src) with
                | .ok obj => obj :: fs.walkEntries src follow rest
                | .error err => [Object.withError err] := rfl
      rw [hstep] at hall ⊢
      rcases List.mem_cons.mp hmem with heq | hmem
      · -- the entry itself
        obtain rfl := Except.ok.inj heq
        rw [if_neg (by simp [hkind]), hu] at hall ⊢
        simp only [hproc, Bool.not_true, Bool.false_eq_true, if_false] at hall ⊢
        cases hstat : fs.statSync (u.setRelative src) with
        | ok obj => exact ⟨obj, List.mem_cons_self, rfl⟩
        | error err =>
          rw [hstat] at hall
          have := hall _ List.mem_cons_self
          cases this
      · -- a later entry
        by_cases hk : e.kind ≠ .file
        · rw [if_pos hk] at hall ⊢
          exact ih hall hmem
        · rw [if_neg hk] at hall ⊢
          cases hfile : Url.new e.path {} with
          | error err =>
            rw [hfile] at hall
            have := hall _ List.mem_cons_self
            cases this
          | ok fileurl =>
            simp only [hfile] at hall ⊢
            by_cases hp : (!fs.shouldProcessUrl e.path follow) = true
            · rw [if_pos hp] at hall ⊢
              exact ih hall hmem
            · rw [if_neg hp] at hall ⊢
              cases hstat : fs.statSync (fileurl.setRelative src) with
              | ok obj =>
                simp only [hstat] at hall ⊢
                obtain ⟨o, ho, hso⟩ := ih (fun o ho => hall o (List.mem_cons_of_mem _ ho)) hmem
                exact ⟨o, List.mem_cons_of_mem _ ho, hso⟩
              | error err =>
                rw [hstat] at hall
                have := hall _ List.mem_cons_self
                cases this

/-- A glob expansion without errors covers every match: one that is no directory
is sent, and the walk of one that is a directory is part of the expansion. -/
theorem LocalFs.exists_mem_globEntries {fs : LocalFs} {src : Url} {follow : Bool}
    {found : List (Except Str Str)}
    (hall : ∀ obj ∈ fs.globEntries src follow found, obj.err = none) {e : Str}
    (hmem : .ok e ∈ found) :
    ∃ u dir, Url.new e {} = .ok u ∧ fs.statSync (u.setRelative src) = .ok dir ∧
      ((dir.typ.isDir = false ∧ dir ∈ fs.globEntries src follow found) ∨
        (dir.typ.isDir = true ∧
          ∀ obj ∈ fs.walk (u.setRelative src) follow, obj ∈ fs.globEntries src follow found)) := by
  induction found with
  | nil => simp at hmem
  | cons x rest ih =>
    cases x with
    | error err =>
      have := hall _ (List.mem_singleton_self _)
      cases this
    | ok path =>
      have hstep : fs.globEntries src follow (.ok path :: rest) =
          match Url.new path {} with
          | .error err => [Object.withError (.msg err)]
          | .ok fileurl =>
            match fs.statSync (fileurl.setRelative src) with
            | .error err => [Object.withError err]
            | .ok obj =>
              if !obj.typ.isDir then obj :: fs.globEntries src follow rest
              else fs.walk (fileurl.setRelative src) follow ++ fs.globEntries src follow rest := rfl
      rw [hstep] at hall ⊢
      cases hnew : Url.new path {} with
      | error err =>
        rw [hnew] at hall
        have := hall _ (List.mem_singleton_self _)
        cases this
      | ok fileurl =>
        simp only [hnew] at hall ⊢
        cases hstat : fs.statSync (fileurl.setRelative src) with
        | error err =>
          rw [hstat] at hall
          have := hall _ (List.mem_singleton_self _)
          cases this
        | ok obj =>
          simp only [hstat] at hall ⊢
          rcases List.mem_cons.mp hmem with heq | hmem
          · obtain rfl := Except.ok.inj heq
            refine ⟨fileurl, obj, hnew, hstat, ?_⟩
            cases hdir : obj.typ.isDir with
            | false => exact Or.inl ⟨rfl, by simp⟩
            | true => exact Or.inr ⟨rfl, fun o ho => by simp [ho]⟩
          · have hrest : ∀ o ∈ fs.globEntries src follow rest, o ∈
                if !obj.typ.isDir then obj :: fs.globEntries src follow rest
                else fs.walk (fileurl.setRelative src) follow ++ fs.globEntries src follow rest := by
              intro o ho
              split
              · exact List.mem_cons_of_mem _ ho
              · exact List.mem_append_right _ ho
            obtain ⟨u, dir, hu, hdir, hcase⟩ := ih (fun o ho => hall o (hrest o ho)) hmem
            refine ⟨u, dir, hu, hdir, ?_⟩
            rcases hcase with ⟨hno, hin⟩ | ⟨hyes, hin⟩
            · exact Or.inl ⟨hno, hrest dir hin⟩
            · exact Or.inr ⟨hyes, fun o ho => hrest o (hin o ho)⟩

/-! ## Both storages -/

/-- The storages a command talks to: how an S3 client for a URL comes out, and
the local filesystem. -/
structure Backend where
  newS3 : Url → Except StorageError S3
  fs : LocalFs

/-- A storage client. -/
inductive Client where
  | remote (s3 : S3)
  | loc (fs : LocalFs)

/-- `new_client`. -/
def Backend.newClient (b : Backend) (u : Url) : Except StorageError Client :=
  if u.isRemote then (b.newS3 u).map .remote else .ok (.loc b.fs)

/-- `Storage::list`. -/
def Client.list : Client → Url → Bool → List Object
  | .remote s3, u, _ => s3.list u
  | .loc fs, u, followSymlinks => fs.list u followSymlinks

/-- `Storage::stat`. -/
def Client.stat : Client → Url → Except StorageError Object
  | .remote s3, u => s3.stat u
  | .loc fs, u => fs.statSync u

/-! ## Simple storages -/

/-- A filesystem without files. -/
def LocalFs.empty : LocalFs where
  symlinkMetadata _ := .error (.notFound [])
  metadata _ := .error (.notFound [])
  glob _ := .ok []
  walkDir _ _ := []
  md5Hex _ := none

/-- A client of a server that answers every ListObjectsV2 request with the
given pages and knows no other request. -/
def S3.ofPages (pages : List (Except StorageError Page)) : S3 where
  listPages _ := pages
  listV1 _ := .ok {}
  listVersions _ := .ok {}
  headObject _ _ _ := .ok none
  fuel := 0

def Backend.ofPages (pages : List (Except StorageError Page)) : Backend where
  newS3 _ := .ok (.ofPages pages)
  fs := .empty

/-- A bucket whose listing is one page with the given keys. -/
def Backend.ofKeys (keys : List String) : Backend :=
  .ofPages [.ok { contents := keys.map fun k => { key := some k.toList } }]

end Rs5cmd
