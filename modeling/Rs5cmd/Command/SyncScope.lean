import Rs5cmd.Command.SyncSpec

/-!
# What a destination listing can report

`sync` compares the names it gives to source objects with the relative paths a
listing of the destination reports. `Reports` says under which relative path the
listing of a destination can report an object at a given place. It is exact:
whatever is collected is reported so (`reports_of_collected`), and every report
comes out of some destination (`collected_of_reports`).
-/

namespace Rs5cmd

open LexPath

/-- Where an object lies: bucket and key, or the cleaned local path. -/
inductive Place where
  | remote (bucket key : Str)
  | loc (path : Str)
  deriving DecidableEq, Repr

/-- `clean_path` for local paths, bucket plus key for remote ones. -/
def Url.place (u : Url) : Place :=
  if u.isRemote then .remote u.bucket u.path else .loc (cleanPath u.path)

/-- The relative path a remote listing of `lu` reports for a key. -/
def remoteKey (lu : Url) (key : Str) : Str :=
  ({ lu with relativePath := lu.relativeOf key, path := key } : Url).relative

/-- A local listing of the pattern `lu` can report the place under `k`: as a
match, or as a file below a match that is a directory. -/
inductive ReportsLocal (g : GlobCrate) (lu : Url) (k : Str) (place : Place) : Prop where
  | entry (p : Str) (pu : Url) (hy : g.yields lu.absolute p) (hp : Url.new p {} = .ok pu)
      (hplace : pu.place = place) (hk : k = relPath lu.baseDir pu.absolute)
  | below (e : Str) (eu : Url) (p : Str) (pu : Url) (hy : g.yields lu.absolute e)
      (he : Url.new e {} = .ok eu) (hp : Url.new p {} = .ok pu)
      (hin : Inside (locOf eu.absolute) (locOf p)) (hne : pu.absolute ≠ eu.absolute)
      (hplace : pu.place = place) (hk : k = relPath eu.baseDir pu.absolute)

/-- The listing of the destination can report the place under the relative path
`k`. -/
def Reports (g : GlobCrate) (dst : Url) (k : Str) (place : Place) : Prop :=
  ∃ lu, Url.parse (listingPath dst) = .ok lu ∧
    if lu.isRemote then
      ∃ key, place = .remote lu.bucket key ∧ lu.isMatch key = true ∧ k = remoteKey lu key
    else ReportsLocal g lu k place

/-! ## URLs with a relative path set -/

@[simp] theorem absolute_setRelative (u base : Url) : (u.setRelative base).absolute = u.absolute := rfl

@[simp] theorem isRemote_setRelative (u base : Url) : (u.setRelative base).isRemote = u.isRemote := rfl

@[simp] theorem place_setRelative (u base : Url) : (u.setRelative base).place = u.place := rfl

@[simp] theorem baseDir_setRelative (u base : Url) : (u.setRelative base).baseDir = u.baseDir := rfl

theorem relative_setRelative (u base : Url) :
    (u.setRelative base).relative = relPath base.baseDir u.absolute := by
  simp [Url.relative, Url.setRelative, relPath_ne_nil]

theorem not_versioned_of_new {s : Str} {u : Url} (h : Url.new s {} = .ok u) :
    u.isVersioned = false := by
  rcases Url.new_eq_ok rfl h with ⟨-, rfl⟩ | ⟨_, _, _, -, -, -, -, rfl⟩
  · rfl
  · rfl

theorem listingPath_eq (dst : Url) : ∃ p, listingPath dst = p ++ ['*'] ∧ Str.endsWith '/' p = true := by
  unfold listingPath
  dsimp only
  split
  · rename_i h
    exact ⟨dst.absolute, rfl, h⟩
  · exact ⟨dst.absolute ++ ['/'], by simp, by simp [Str.endsWith]⟩

/-- The listing of a local destination is a glob. -/
theorem listing_isWildcard {dst lu : Url} (h : Url.parse (listingPath dst) = .ok lu)
    (hloc : lu.isRemote = false) : lu.isWildcard = true := by
  obtain ⟨p, hp, -⟩ := listingPath_eq dst
  rcases Url.new_eq_ok rfl h with ⟨-, rfl⟩ | ⟨_, _, _, -, -, -, -, rfl⟩
  · simp [Url.isWildcard, Url.parsed, Url.blank, hasGlobCharacter, hp, isGlobChar]
  · exact absurd (show true = false from hloc) (by decide)

/-! ## Whatever is collected is reported -/

theorem LocalFs.statSync_typ {fs : LocalFs} {u v : Url} {a b : Object}
    (hu : fs.statSync u = .ok a) (hv : fs.statSync v = .ok b) (habs : u.absolute = v.absolute) :
    a.typ = b.typ := by
  unfold LocalFs.statSync at hu hv
  rw [habs] at hu
  dsimp only at hu hv
  split at hu
  · cases hu
  · cases hu
  · rename_i own hown
    rw [hown] at hv
    rw [← Except.ok.inj hu, ← Except.ok.inj hv]

theorem reportsLocal_of_listed {g : GlobCrate} {fs : LocalFs} (hconf : fs.Conforms g) {lu : Url}
    (hwild : lu.isWildcard = true) {obj : Object} {u : Url} (hmem : obj ∈ fs.list lu false)
    (herr : obj.err = none) (hdir : obj.typ.isDir = false) (hu : obj.url = some u) :
    ReportsLocal g lu u.relative u.place := by
  rw [LocalFs.list, if_pos hwild, LocalFs.expandGlob] at hmem
  cases hglob : fs.glob lu.absolute with
  | error e =>
    rw [hglob] at hmem
    rw [List.mem_singleton.mp hmem] at herr
    cases herr
  | ok found =>
    rw [hglob] at hmem
    rcases List.mem_append.mp hmem with hmem | hmem
    · obtain ⟨e, eu, dir, he, heu, hstat, hcase⟩ := LocalFs.mem_globEntries hmem herr
      have hy := hconf.glob _ _ _ hglob he
      rcases hcase with ⟨-, rfl⟩ | ⟨hisdir, hwalk⟩
      · -- a match that is no directory
        have hurl := (LocalFs.statSync_err hstat).2
        obtain rfl : eu.setRelative lu = u := Option.some.inj (hurl.symm.trans hu)
        exact .entry e eu hy heu rfl (relative_setRelative _ _)
      · -- a file below a matched directory
        rw [LocalFs.walk] at hwalk
        split at hwalk
        · simp at hwalk
        · obtain ⟨entry, pu, hentry, -, hpu, -, hpstat⟩ := LocalFs.mem_walkEntries hwalk herr
          have hurl := (LocalFs.statSync_err hpstat).2
          obtain rfl : pu.setRelative (eu.setRelative lu) = u := Option.some.inj (hurl.symm.trans hu)
          have hin := hconf.walk _ _ _ hentry
          have hne : pu.absolute ≠ eu.absolute := by
            intro habs
            rw [LocalFs.statSync_typ hpstat hstat habs, hisdir] at hdir
            exact Bool.false_ne_true hdir.symm
          exact .below e eu entry.path pu hy heu hpu hin hne rfl (relative_setRelative _ _)
    · split at hmem
      · rw [List.mem_singleton.mp hmem] at herr
        cases herr
      · simp at hmem

theorem remoteKey_place {lu : Url} (hrem : lu.isRemote = true) {s3 : S3} {obj : Object} {u : Url}
    (hmem : obj ∈ s3.list lu) (herr : obj.err = none) (hu : obj.url = some u) :
    ∃ key, u.place = .remote lu.bucket key ∧ lu.isMatch key = true ∧ u.relative = remoteKey lu key := by
  rcases S3.listedFrom hmem with hsome | ⟨-, raw, u', hraw, hurl⟩
  · rw [herr] at hsome
    cases hsome
  · obtain ⟨hmatch, rfl⟩ := Url.listed_eq_some.mp hraw
    have hrem' : lu.kind = .remote := by simpa [Url.isRemote] using hrem
    refine ⟨percentDecode raw, ?_, hmatch, ?_⟩
    · rcases hurl with hurl | ⟨vid, hurl⟩
      · rw [← Option.some.inj (hurl.symm.trans hu)]
        simp [Url.place, Url.isRemote, hrem']
      · rw [← Option.some.inj (hurl.symm.trans hu)]
        simp [Url.place, Url.isRemote, hrem']
    · rcases hurl with hurl | ⟨vid, hurl⟩
      · rw [← Option.some.inj (hurl.symm.trans hu)]
        rfl
      · rw [← Option.some.inj (hurl.symm.trans hu)]
        rfl

/-- **Whatever the destination map holds, the listing can report.** -/
theorem reports_of_collected {g : GlobCrate} {bd : Backend} {dst : Url} {filters : Filters}
    {dest : ObjectMap} (hconf : bd.fs.Conforms g)
    (h : collectDestObjects bd dst filters = .ok dest) {k : Str} {obj : Object} {u : Url}
    (hk : dest[k]? = some obj) (hu : obj.url = some u) :
    Reports g dst k u.place ∧ filters.shouldSkip k = false := by
  unfold collectDestObjects at h
  cases hparse : Url.parse (listingPath dst) with
  | error e =>
    rw [hparse] at h
    obtain rfl := Except.ok.inj h
    simp at hk
  | ok lu =>
    simp only [hparse] at h
    cases hclient : bd.newClient lu with
    | error e =>
      rw [hclient] at h
      obtain rfl := Except.ok.inj h
      simp at hk
    | ok client =>
      rw [hclient] at h
      rcases collectDestListed_ok h hk with hnone | ⟨hmem, herr, hkey⟩
      · simp at hnone
      · obtain ⟨hdir, v, hv, hrel, hskip⟩ := destKey_eq_some.mp hkey
        obtain rfl : v = u := Option.some.inj (hv.symm.trans hu)
        refine ⟨⟨lu, hparse, ?_⟩, hskip⟩
        subst hrel
        cases hrem : lu.isRemote with
        | true =>
          rw [if_pos rfl]
          simp only [Backend.newClient, hrem, if_true] at hclient
          cases hs3 : bd.newS3 lu with
          | error e =>
            rw [hs3] at hclient
            cases hclient
          | ok s3 =>
            rw [hs3] at hclient
            obtain rfl := Except.ok.inj hclient
            obtain ⟨key, hplace, hmatch, hkey⟩ := remoteKey_place hrem hmem herr hu
            exact ⟨key, hplace, hmatch, hkey⟩
        | false =>
          rw [if_neg (by simp)]
          simp only [Backend.newClient, hrem, Bool.false_eq_true, if_false] at hclient
          obtain rfl := Except.ok.inj hclient
          exact reportsLocal_of_listed hconf (listing_isWildcard hparse hrem) hmem herr hdir hu

/-! ## Every report comes out of some destination -/

/-- A filesystem in which the pattern matches one regular file. -/
def LocalFs.oneMatch (pattern p : Str) : LocalFs where
  symlinkMetadata _ := .ok ⟨.file, 0, none⟩
  metadata _ := .ok ⟨.file, 0, none⟩
  glob pat := .ok (if pat = pattern then [.ok p] else [])
  walkDir _ _ := []
  md5Hex _ := none

/-- A filesystem in which the pattern matches one directory, below which there
is one regular file. -/
def LocalFs.oneBelow (pattern e root p : Str) : LocalFs where
  symlinkMetadata path := .ok ⟨if path = root then .dir else .file, 0, none⟩
  metadata path := .ok ⟨if path = root then .dir else .file, 0, none⟩
  glob pat := .ok (if pat = pattern then [.ok e] else [])
  walkDir path _ := if path = root then [.ok ⟨p, .file⟩] else []
  md5Hex _ := none

theorem LocalFs.empty_conforms (g : GlobCrate) : LocalFs.empty.Conforms g where
  glob := by
    intro pat found e hfound he
    obtain rfl := Except.ok.inj hfound
    simp at he
  walk := by
    intro root follow entry h
    simp [LocalFs.empty] at h

theorem LocalFs.oneMatch_conforms {g : GlobCrate} {pattern p : Str} (hy : g.yields pattern p) :
    (LocalFs.oneMatch pattern p).Conforms g where
  glob := by
    intro pat found e hfound he
    obtain rfl := Except.ok.inj hfound
    split at he
    · rename_i hpat
      obtain rfl := Except.ok.inj (List.mem_singleton.mp he)
      rw [hpat]
      exact hy
    · simp at he
  walk := by
    intro root follow entry h
    simp [LocalFs.oneMatch] at h

theorem LocalFs.oneBelow_conforms {g : GlobCrate} {pattern e root p : Str}
    (hy : g.yields pattern e) (hin : Inside (locOf root) (locOf p)) :
    (LocalFs.oneBelow pattern e root p).Conforms g where
  glob := by
    intro pat found e' hfound he
    obtain rfl := Except.ok.inj hfound
    split at he
    · rename_i hpat
      obtain rfl := Except.ok.inj (List.mem_singleton.mp he)
      rw [hpat]
      exact hy
    · simp at he
  walk := by
    intro root' follow entry h
    simp only [LocalFs.oneBelow] at h
    split at h
    · rename_i hroot
      obtain rfl := Except.ok.inj (List.mem_singleton.mp h)
      rw [hroot]
      exact hin
    · simp at h

theorem LocalFs.list_oneMatch {lu : Url} (hwild : lu.isWildcard = true) {p : Str} {pu : Url}
    (hp : Url.new p {} = .ok pu) :
    (LocalFs.oneMatch lu.absolute p).list lu false =
      [{ url := some (pu.setRelative lu), typ := .file }] := by
  simp [LocalFs.list, hwild, LocalFs.expandGlob, LocalFs.oneMatch, LocalFs.globEntries, hp,
    LocalFs.statSync, ObjectType.isDir]

theorem LocalFs.list_oneBelow {lu : Url} (hwild : lu.isWildcard = true) {e p : Str} {eu pu : Url}
    (he : Url.new e {} = .ok eu) (hp : Url.new p {} = .ok pu) (hne : pu.absolute ≠ eu.absolute) :
    (LocalFs.oneBelow lu.absolute e eu.absolute p).list lu false =
      [{ url := some (pu.setRelative (eu.setRelative lu)), typ := .file }] := by
  have hproc : ∀ path, (LocalFs.oneBelow lu.absolute e eu.absolute p).shouldProcessUrl path false =
      true := by
    intro path
    simp only [LocalFs.shouldProcessUrl, LocalFs.oneBelow, Bool.false_or]
    split <;> rfl
  have hwalk : (LocalFs.oneBelow lu.absolute e eu.absolute p).walk (eu.setRelative lu) false =
      [{ url := some (pu.setRelative (eu.setRelative lu)), typ := .file }] := by
    rw [LocalFs.walk, hproc]
    simp [LocalFs.oneBelow, LocalFs.walkEntries, hp, LocalFs.statSync, hne]
    exact hproc p
  simp only [LocalFs.list, hwild, if_true, LocalFs.expandGlob]
  simp only [LocalFs.oneBelow, if_true] at hwalk ⊢
  simp [LocalFs.globEntries, he, LocalFs.statSync, ObjectType.isDir, hwalk]

/-- A destination that lists one object holds it under its relative path. -/
theorem collectDestListed_singleton {dst : Url} {filters : Filters} {obj : Object} {u : Url}
    (herr : obj.err = none) (hdir : obj.typ.isDir = false) (hu : obj.url = some u)
    (hskip : filters.shouldSkip u.relative = false) :
    collectDestListed dst filters [obj] ∅ = .ok ((∅ : ObjectMap).insert u.relative obj) := by
  have hkey : destKey filters obj = some u.relative :=
    destKey_eq_some.mpr ⟨hdir, u, hu, rfl, hskip⟩
  simp [collectDestListed, herr, hkey]

theorem collectDestObjects_eq {bd : Backend} {dst lu : Url} {filters : Filters} {client : Client}
    (hparse : Url.parse (listingPath dst) = .ok lu) (hclient : bd.newClient lu = .ok client) :
    collectDestObjects bd dst filters =
      collectDestListed dst filters (client.list lu false) ∅ := by
  simp [collectDestObjects, hparse, hclient]

/-- A server that answers every listing with one key, percent-encoded. -/
def Backend.oneKey (key : Str) : Backend :=
  .ofPages [.ok { contents := [{ key := some (percentEncodeAll key) }] }]

/-- A bucket with one key that matches is collected under its relative path. -/
theorem collectDestObjects_oneKey {dst lu : Url} {filters : Filters} {key : Str}
    (hparse : Url.parse (listingPath dst) = .ok lu) (hrem : lu.isRemote = true)
    (hmatch : lu.isMatch key = true) (hskip : filters.shouldSkip (remoteKey lu key) = false) :
    ∃ obj u, obj.url = some u ∧ u.place = .remote lu.bucket key ∧
      collectDestObjects (.oneKey key) dst filters =
        .ok ((∅ : ObjectMap).insert (remoteKey lu key) obj) := by
  let u : Url := { lu with relativePath := lu.relativeOf key, path := key }
  have hlisted : lu.listed (percentEncodeAll key) = some u := by
    rw [Url.listed_eq_some, percentDecode_encodeAll]
    exact ⟨hmatch, rfl⟩
  refine ⟨{ url := some u, typ := .file }, u, rfl, ?_, ?_⟩
  · have hrem' : u.isRemote = true := hrem
    rw [Url.place, if_pos hrem']
  · have hclient : (Backend.oneKey key).newClient lu =
        .ok (.remote (.ofPages [.ok { contents := [{ key := some (percentEncodeAll key) }] }])) := by
      rw [Backend.newClient, if_pos hrem]
      rfl
    rw [collectDestObjects_eq hparse hclient]
    have hlist : (Client.remote (.ofPages
        [.ok { contents := [{ key := some (percentEncodeAll key) }] }])).list lu false =
          [{ url := some u, typ := .file }] := by
      have hv := not_versioned_of_new hparse
      simp [Client.list, S3.list, hv, S3.ofPages, listV2, listV2Go, pageObjects, contentObject,
        hlisted, listEnd, trimQuotes, Str.trimEndMatches]
    rw [hlist]
    exact collectDestListed_singleton rfl rfl rfl hskip

/-- A local destination with one match is collected under its relative path. -/
theorem collectDestObjects_oneMatch {dst lu pu : Url} {filters : Filters} {p : Str}
    (hparse : Url.parse (listingPath dst) = .ok lu) (hrem : lu.isRemote = false)
    (hp : Url.new p {} = .ok pu)
    (hskip : filters.shouldSkip (relPath lu.baseDir pu.absolute) = false) :
    ∃ obj u, obj.url = some u ∧ u.place = pu.place ∧
      collectDestObjects ⟨fun _ => .error .noObjectFound, .oneMatch lu.absolute p⟩ dst filters =
        .ok ((∅ : ObjectMap).insert (relPath lu.baseDir pu.absolute) obj) := by
  have hclient : (Backend.mk (fun _ => .error .noObjectFound) (.oneMatch lu.absolute p)).newClient lu =
      .ok (.loc (.oneMatch lu.absolute p)) := by
    simp [Backend.newClient, hrem]
  refine ⟨{ url := some (pu.setRelative lu), typ := .file }, _, rfl, rfl, ?_⟩
  rw [collectDestObjects_eq hparse hclient, Client.list,
    LocalFs.list_oneMatch (listing_isWildcard hparse hrem) hp]
  rw [← relative_setRelative] at hskip ⊢
  exact collectDestListed_singleton rfl rfl rfl hskip

/-- **Every report that is not filtered out comes out of some destination**,
which then holds that object alone. -/
theorem collected_of_reports {g : GlobCrate} {dst : Url} {filters : Filters} {k : Str}
    {place : Place} (h : Reports g dst k place) (hskip : filters.shouldSkip k = false) :
    ∃ bd : Backend, bd.fs.Conforms g ∧ ∃ obj u, obj.url = some u ∧ u.place = place ∧
      collectDestObjects bd dst filters = .ok ((∅ : ObjectMap).insert k obj) := by
  obtain ⟨lu, hparse, hcase⟩ := h
  cases hrem : lu.isRemote with
  | true =>
    rw [hrem, if_pos rfl] at hcase
    obtain ⟨key, rfl, hmatch, rfl⟩ := hcase
    exact ⟨.oneKey key, LocalFs.empty_conforms g,
      collectDestObjects_oneKey hparse hrem hmatch hskip⟩
  | false =>
    rw [hrem, if_neg (by simp)] at hcase
    cases hcase with
    | entry p pu hy hp hplace hk =>
      subst hk
      subst hplace
      exact ⟨_, LocalFs.oneMatch_conforms hy, collectDestObjects_oneMatch hparse hrem hp hskip⟩
    | below e eu p pu hy he hp hin hne hplace hk =>
      have hrel : (pu.setRelative (eu.setRelative lu)).relative = k :=
        (relative_setRelative _ _).trans hk.symm
      refine ⟨⟨fun _ => .error .noObjectFound, .oneBelow lu.absolute e eu.absolute p⟩,
        LocalFs.oneBelow_conforms hy hin,
        { url := some (pu.setRelative (eu.setRelative lu)), typ := .file }, _, rfl, hplace, ?_⟩
      have hclient : (Backend.mk (fun _ => .error .noObjectFound)
          (.oneBelow lu.absolute e eu.absolute p)).newClient lu =
            .ok (.loc (.oneBelow lu.absolute e eu.absolute p)) := by
        simp [Backend.newClient, hrem]
      rw [collectDestObjects_eq hparse hclient, Client.list,
        LocalFs.list_oneBelow (listing_isWildcard hparse hrem) he hp hne]
      rw [← hrel] at hskip ⊢
      exact collectDestListed_singleton rfl rfl rfl hskip

/-! ## Remote destinations -/

/-- The key prefix the listing of a remote destination asks for, up to its first
wildcard. -/
def listingKey (dst : Url) : Str :=
  if dst.path = [] then [] else if Str.endsWith '/' dst.path then dst.path else dst.path ++ ['/']

theorem listingKey_slash (dst : Url) :
    listingKey dst = [] ∨ Str.endsWith '/' (listingKey dst) = true := by
  unfold listingKey
  split
  · exact Or.inl rfl
  · split
    · rename_i h
      exact Or.inr h
    · exact Or.inr (by simp [Str.endsWith])

/-- The URL `sync` lists a remote destination with. -/
theorem parse_listing_remote {raw : Str} {dst : Url} (h : Url.parse raw = .ok dst)
    (hrem : dst.isRemote = true) :
    Url.parse (listingPath dst) =
      .ok (Url.parsed .remote "s3".toList dst.bucket (listingKey dst ++ ['*']) {}) := by
  obtain ⟨hdst, hb⟩ := Url.remote_of_new rfl h hrem
  have hscheme : dst.scheme = "s3".toList := by rw [hdst]; rfl
  have hpath : listingPath dst = "s3://".toList ++ (dst.bucket ++ '/' :: (listingKey dst ++ ['*'])) := by
    have habs : dst.absolute =
        "s3://".toList ++ (dst.bucket ++ if dst.path = [] then [] else '/' :: dst.path) := by
      rw [Url.absolute, if_pos hrem, Url.remoteUrl, hscheme]
      simp
    by_cases hempty : dst.path = []
    · -- a bucket root: its last character is not a slash
      have hend : Str.endsWith '/' dst.absolute = false := by
        rw [habs, if_pos hempty, List.append_nil, Str.endsWith_append _ _ hb.ne_nil]
        exact Str.endsWith_of_not_mem hb.slash
      rw [listingPath, hend]
      simp [habs, hempty, listingKey]
    · have hend : Str.endsWith '/' dst.absolute = Str.endsWith '/' dst.path := by
        rw [habs, if_neg hempty, ← List.append_assoc, ← List.singleton_append, ← List.append_assoc,
          Str.endsWith_append _ _ hempty]
      rw [listingPath, hend]
      cases hslash' : Str.endsWith '/' dst.path with
      | true => simp [habs, hempty, listingKey, hslash']
      | false => simp [habs, hempty, listingKey, hslash']
  rw [hpath]
  exact Url.parse_remote hb _

/-- **A remote destination without wildcards** reports the target of a source
object under the object's own name. -/
theorem reports_remote_literal {g : GlobCrate} {raw : Str} {dst : Url}
    (h : Url.parse raw = .ok dst) (hrem : dst.isRemote = true)
    (hlit : hasGlobCharacter dst.path = false) {k t : Str} (ht : t ≠ [])
    (hrep : Reports g dst k (.remote dst.bucket (listingKey dst ++ t))) : k = t := by
  have hlitKey : hasGlobCharacter (listingKey dst) = false := by
    unfold listingKey
    split
    · rfl
    · split
      · exact hlit
      · simp only [hasGlobCharacter, List.any_append, Bool.or_eq_false_iff] at hlit ⊢
        exact ⟨hlit, by decide⟩
  obtain ⟨lu, hparse, hcase⟩ := hrep
  rw [parse_listing_remote h hrem] at hparse
  obtain rfl := Except.ok.inj hparse
  rw [if_pos (show (Url.parsed .remote "s3".toList dst.bucket (listingKey dst ++ ['*']) {}).isRemote
    = true from rfl)] at hcase
  obtain ⟨key, hplace, -, rfl⟩ := hcase
  obtain rfl : listingKey dst ++ t = key := (Place.remote.inj hplace).2
  have hrel : (Url.parsed .remote "s3".toList dst.bucket (listingKey dst ++ ['*']) {}).relativeOf
      (listingKey dst ++ t) = t := by
    have hfilter : Url.globPart (listingKey dst ++ ['*']) = ['*'] := by
      rw [Url.globPart_append hlitKey]
      decide
    have hpre : Url.literalPart (listingKey dst ++ ['*']) = listingKey dst := by
      rw [Url.literalPart_append hlitKey, show Url.literalPart ['*'] = [] by decide, List.append_nil]
    simp only [Url.relativeOf, Url.parsed, hfilter, hpre]
    rw [if_pos (by simp), Url.parseBatch_append (listingKey_slash dst)]
  rw [remoteKey, hrel, Url.relative, if_pos ht]

/-! ## Local destinations -/

/-- The directory a local destination lists. -/
def listingDir (dst : Url) : Str :=
  if Str.endsWith '/' dst.path then dst.path else dst.path ++ ['/']

theorem listingDir_slash (dst : Url) : Str.endsWith '/' (listingDir dst) = true := by
  unfold listingDir
  split
  · rename_i h
    exact h
  · simp [Str.endsWith]

theorem listingPath_local {dst : Url} (hloc : dst.isRemote = false) :
    listingPath dst = listingDir dst ++ ['*'] := by
  have habs : dst.absolute = dst.path := by simp [Url.absolute, hloc]
  simp only [listingPath, listingDir, habs]
  split
  · rfl
  · simp

/-- Cutting a name off a directory. -/
theorem rdropWhile_append_name {parent name : Str} (hname : '/' ∉ name)
    (hparent : parent = [] ∨ Str.endsWith '/' parent = true) :
    (parent ++ name).rdropWhile (· != '/') = parent := by
  induction name using List.reverseRecOn with
  | nil =>
    rw [List.append_nil]
    rcases hparent with rfl | hend
    · rfl
    · have hlast : parent.getLast? = some '/' := by simpa [Str.endsWith] using hend
      obtain ⟨q, rfl⟩ := List.getLast?_eq_some_iff.mp hlast
      simp
  | append_singleton xs x ih =>
    have hx : x ≠ '/' := fun h => hname (by simp [h])
    rw [← List.append_assoc, List.rdropWhile_concat]
    simp only [bne_iff_ne, ne_eq, hx, not_false_eq_true, if_true]
    exact ih fun h => hname (List.mem_append_left _ h)

/-- The directory part of a path that is a directory followed by a name. -/
theorem goDir_append {parent name : Str} (hname : '/' ∉ name)
    (hparent : parent = [] ∨ Str.endsWith '/' parent = true) :
    goDir (parent ++ name) = cleanPath parent := by
  unfold goDir
  split
  · rename_i hnil
    obtain ⟨rfl, -⟩ := List.append_eq_nil_iff.mp hnil
    rfl
  · rw [rdropWhile_append_name hname hparent]

theorem hasGlob_of_meta {p : Str} (h : p.any isGlobMeta = false) : hasGlobCharacter p = false := by
  rw [hasGlobCharacter, List.any_eq_false]
  intro c hc hglob
  have := List.any_eq_false.mp h c hc
  simp only [isGlobMeta, Bool.or_eq_true, not_or] at this
  simp only [isGlobChar, Bool.or_eq_true] at hglob
  rcases hglob with hq | hs
  · exact this.1.2 hq
  · exact this.1.1 hs

end Rs5cmd
