import Rs5cmd.Command.Cp
import Rs5cmd.Theorems.ListKeys
import Rs5cmd.Theorems.RelPath
import Mathlib.Data.List.Nodup
import Mathlib.Data.List.Perm.Basic

/-!
# The versions that `cp --all-versions` copies

Versions are listed by prefix, so those of longer keys on the same level come along,
and `expand_all_versions` keeps every one with a body. A key with a space arrives
with `+` in its place and is not matched.
-/

namespace Rs5cmd

open LexPath

/-! ## A versioned bucket -/

/-- A version of an object, or a delete marker. -/
structure StoredVersion extends StoredObject where
  versionId : Str
  deleteMarker : Bool := false
  deriving DecidableEq, Repr

/-- The listing entry of a version, with its key encoded. -/
def StoredVersion.versionEntry (enc : Str → Str) (v : StoredVersion) : VersionEntry where
  toEntry := v.toStoredObject.entry enc
  versionId := some v.versionId

/-- What a bucket promises about its versions: each has an id of its own under its
key, which goes into a URL as it is. -/
structure VersionedBucket (vs : List StoredVersion) : Prop where
  once : (vs.map fun v => (v.key, v.versionId)).Nodup
  id : ∀ v ∈ vs, v.versionId ≠ [] ∧ '/' ∉ v.versionId

instance (req : ListRequest) (key : Str) : Decidable (req.Covers key) :=
  inferInstanceAs (Decidable (_ ∧ ∀ d ∈ req.delimiter, _))

/-- The pages hold the entries of the versions and delete markers asked for, each
once. -/
structure ListsVersions (enc : Str → Str) (vs : List StoredVersion) (req : ListRequest)
    (pages : List VersionsPage) : Prop where
  versions : (pages.flatMap VersionsPage.versions).Perm
    ((vs.filter fun v => !v.deleteMarker && req.Covers v.key).map (StoredVersion.versionEntry enc))
  deleteMarkers : (pages.flatMap VersionsPage.deleteMarkers).Perm
    ((vs.filter fun v => v.deleteMarker && req.Covers v.key).map (StoredVersion.versionEntry enc))

/-- The versions of a key that have a body. -/
def bodiesOf (key : Str) (vs : List StoredVersion) : List StoredVersion :=
  vs.filter fun v => v.key = key && !v.deleteMarker

/-- The file or object that a URL names. -/
def Url.target (u : Url) : Str := if u.isRemote then u.absolute else cleanPath u.path

/-- The pairs are for the versions of the key, each once, and no two have the same
destination. -/
structure CopiesVersions (bucket key : Str) (vs : List StoredVersion) (pairs : List (Url × Url)) :
    Prop where
  sources : (pairs.map fun pr => (pr.1.bucket, pr.1.path, pr.1.versionId)).Perm
    ((bodiesOf key vs).map fun v => (bucket, key, v.versionId))
  apart : (pairs.map fun pr => pr.2.target).Nodup

/-! ## What is kept of a listing -/

section Kept

variable {src : Url}

theorem filterMap_keptVersion_page (page : VersionsPage) :
    (versionsPageObjects src page).filterMap keptVersion =
      page.versions.filterMap fun v => (versionObject src v).bind keptVersion := by
  have hdir : ∀ p : Option Str, (commonPrefixObject src p).bind keptVersion = none := by
    intro p
    rw [commonPrefixObject]
    cases p.bind src.listed <;> rfl
  have hmarker : ∀ d : VersionEntry, (deleteMarkerObject src d).bind keptVersion = none := by
    intro d
    rw [deleteMarkerObject]
    cases src.listedVersion d <;> rfl
  rw [versionsPageObjects, List.filterMap_append, List.filterMap_append, List.filterMap_filterMap,
    List.filterMap_filterMap, List.filterMap_filterMap]
  simp [hdir, hmarker]

/-- **What is kept of a listing** is kept of the versions on its pages. -/
theorem filterMap_keptVersion {server : ListRequest → Except StorageError VersionsPage} {fuel : Nat}
    {keyMarker versionMarker : Option Str} {found : Bool} :
    (listObjectVersionsGo server src fuel keyMarker versionMarker found).filterMap keptVersion =
      ((listObjectVersionsPages server src fuel keyMarker versionMarker).flatMap
        VersionsPage.versions).filterMap fun v => (versionObject src v).bind keptVersion := by
  have hend : ∀ found, (listEnd src found).filterMap keptVersion = [] := by
    intro found
    unfold listEnd
    split <;> rfl
  induction fuel generalizing keyMarker versionMarker found with
  | zero => rfl
  | succ fuel ih =>
    unfold listObjectVersionsGo listObjectVersionsPages
    cases server { bucket := src.bucket, keyPrefix := src.keyPrefix,
                   delimiter := nonEmpty src.delimiter, marker := keyMarker,
                   versionIdMarker := versionMarker } with
    | error e => rfl
    | ok page =>
      dsimp only
      rw [List.filterMap_append, filterMap_keptVersion_page, List.flatMap_cons,
        List.filterMap_append]
      congr 1
      split
      · split
        · exact hend _
        · exact ih
      · exact hend _

/-- A version is kept under the key it is listed as. -/
theorem keptVersion_versionEntry {enc : Str → Str} (hsrc : src.versionId = []) {v : StoredVersion}
    (hv : v.versionId ≠ []) : (versionObject src (v.versionEntry enc)).bind keptVersion =
      (src.listed (enc v.key)).map fun u => { u with versionId := v.versionId } := by
  have hlisted : src.listedVersion (v.versionEntry enc) =
      (src.listed (enc v.key)).map fun u => { u with versionId := v.versionId } := by
    show (src.listed (enc v.key)).bind _ = _
    cases src.listed (enc v.key) with
    | none => rfl
    | some u => simp [hsrc, StoredVersion.versionEntry]
  rw [versionObject, hlisted]
  cases src.listed (enc v.key) with
  | none => rfl
  | some u => simp [keptVersion, hv, ObjectType.isDir]

end Kept

/-! ## Destinations -/

section Destinations

/-- The last element of a remote path has no slash, unless it is only slashes. -/
theorem remoteBase_cases (p : Str) : '/' ∉ remoteBase p ∨ remoteBase p = ['/'] := by
  unfold remoteBase
  split
  · exact .inl (by decide)
  · dsimp only
    split
    · exact .inr rfl
    · left
      split
      · rename_i i hi
        obtain ⟨a, b, hab, hb, rfl⟩ := Str.rfind_eq_some.mp hi
        rw [hab, show a ++ '/' :: b = (a ++ ['/']) ++ b by simp, List.drop_left' (by simp)]
        exact hb
      · rename_i hnone
        exact Str.rfind_eq_none.mp hnone

/-- What is appended to a name with an underscore makes a name. -/
theorem isName_underscore {x vid : Str} (hx : '/' ∉ x) (hvid : '/' ∉ vid) :
    IsName (x ++ '_' :: vid) := by
  refine ⟨by simp, ?_, ?_, by simp [hx, hvid]⟩
  · intro h
    have hmem : '_' ∈ dot := by rw [← h]; simp
    exact absurd hmem (by decide)
  · intro h
    have hmem : '_' ∈ dotdot := by rw [← h]; simp
    exact absurd hmem (by decide)

theorem segsOf_isName {s : Str} (h : IsName s) : segsOf s = [.name ⟨s, h⟩] := by
  have := segsOf_join_names [⟨s, h⟩]
  simpa [Str.join, List.intercalate] using this

/-- Names after the same location are told apart by it. -/
theorem name_inj_of_walk {l : Loc Name} {s t : Str} (hs : IsName s) (ht : IsName t)
    (h : l.walk (segsOf s) = l.walk (segsOf t)) : s = t := by
  rw [segsOf_isName hs, segsOf_isName ht] at h
  have := List.append_cancel_left (congrArg Loc.names h)
  exact congrArg Subtype.val (List.cons.inj this).1

/-- **No two versions of a key have the same destination.** -/
theorem versionedDest_inj {u v dst : Url} {dstIsDir : Bool} (hbase : u.base = v.base)
    (hslash : '/' ∉ u.base ∨ u.base = ['/']) (hu : '/' ∉ u.versionId) (hv : '/' ∉ v.versionId)
    (h : (versionedDest u dst dstIsDir).target = (versionedDest v dst dstIsDir).target) :
    u.versionId = v.versionId := by
  have hcancel : ∀ {x : Str}, x ++ '_' :: u.versionId = x ++ '_' :: v.versionId →
      u.versionId = v.versionId := by
    intro x hx
    exact (List.cons.inj (List.append_cancel_left hx)).2
  cases hrem : dst.isRemote with
  | true =>
    -- what is appended to the path of an object stays at its end
    obtain ⟨x, hx⟩ : ∃ x, ∀ w : Url, w.base = u.base →
        (versionedDest w dst dstIsDir).target = x ++ '_' :: w.versionId := by
      refine ⟨dst.scheme ++ "://".toList ++ dst.bucket ++
        '/' :: (dst.path ++ if dstIsDir then u.base else []), fun w hw => ?_⟩
      have htarget : ∀ q : Str, q ≠ [] → Url.target { dst with path := q } =
          dst.scheme ++ "://".toList ++ dst.bucket ++ '/' :: q := by
        intro q hq
        have hpath : Url.isRemote { dst with path := q } = true := hrem
        rw [Url.target, if_pos hpath, Url.absolute, if_pos hpath, Url.remoteUrl, if_neg hq]
      cases dstIsDir with
      | true =>
        have hdest : versionedDest w dst true =
            { dst with path := dst.path ++ (w.base ++ '_' :: w.versionId) } := by
          rw [versionedDest, if_pos rfl, Url.join, if_pos hrem]
        rw [hdest, htarget _ (by simp), hw]
        simp
      | false =>
        have hdest : versionedDest w dst false =
            { dst with path := dst.path ++ '_' :: w.versionId } := if_neg (by simp)
        rw [hdest, htarget _ (by simp)]
        simp
    rw [hx u rfl, hx v hbase.symm] at h
    exact hcancel h
  | false =>
    have hrel : ∀ w : Url, (versionedDest w dst dstIsDir).isRemote = false := by
      intro w
      unfold versionedDest
      split <;> exact hrem
    rw [Url.target, Url.target, if_neg (by simp [hrel]), if_neg (by simp [hrel]),
      cleanPath_eq_iff] at h
    cases dstIsDir with
    | false =>
      obtain ⟨parent, last, hsplit, hlast, hparent⟩ := exists_dirPart dst.path
      have hloc : ∀ {w : Url}, '/' ∉ w.versionId → locOf (versionedDest w dst false).path =
          (locOf parent).walk (segsOf (last ++ '_' :: w.versionId)) := by
        intro w hw
        show locOf (dst.path ++ '_' :: w.versionId) = _
        rw [hsplit, List.append_assoc]
        exact locOf_append_last hparent (by simp [hlast, hw])
      rw [hloc hu, hloc hv] at h
      exact hcancel (name_inj_of_walk (isName_underscore hlast hu) (isName_underscore hlast hv) h)
    | true =>
      have hloc : ∀ {w : Url}, (versionedDest w dst true).path =
          pathJoin dst.path (w.base ++ '_' :: w.versionId) := by
        intro w
        show (dst.join (w.base ++ '_' :: w.versionId)).path = _
        rw [Url.join, if_neg (by simp [hrem])]
      -- the name appended, without the slash that a base of slashes comes with
      obtain ⟨x, hx, hsegs⟩ : ∃ x, '/' ∉ x ∧ ∀ vid : Str,
          segsOf (u.base ++ '_' :: vid) = segsOf (x ++ '_' :: vid) := by
        rcases hslash with hno | hyes
        · exact ⟨u.base, hno, fun _ => rfl⟩
        · refine ⟨[], by simp, fun vid => ?_⟩
          rw [hyes]
          exact segsOf_append_slash [] ('_' :: vid)
      have hwalk : (if dst.path = [] then Loc.start (Str.startsWith ['/'] (u.base ++ ['_']))
          else locOf dst.path).walk (segsOf (x ++ '_' :: u.versionId)) =
          (if dst.path = [] then Loc.start (Str.startsWith ['/'] (u.base ++ ['_']))
          else locOf dst.path).walk (segsOf (x ++ '_' :: v.versionId)) := by
        have hstart : ∀ vid : Str, Str.startsWith ['/'] (u.base ++ '_' :: vid) =
            Str.startsWith ['/'] (u.base ++ ['_']) := by
          intro vid
          cases u.base with
          | nil => simp [Str.startsWith, List.cons_prefix_cons]
          | cons c cs => simp [Str.startsWith, List.cons_prefix_cons]
        have hname : ∀ vid : Str, locOf (u.base ++ '_' :: vid) =
            (Loc.start (Str.startsWith ['/'] (u.base ++ ['_']))).walk (segsOf (x ++ '_' :: vid)) := by
          intro vid
          rw [locOf, hstart, hsegs]
        rw [hloc, hloc, ← hbase, locOf_pathJoin, locOf_pathJoin] at h
        split
        · rename_i hnil
          rwa [if_pos hnil, if_pos hnil, hname, hname] at h
        · rename_i hne
          rwa [if_neg hne, if_neg hne, hsegs, hsegs] at h
      exact hcancel (name_inj_of_walk (isName_underscore hx hu) (isName_underscore hx hv) hwalk)

end Destinations

/-! ## The expansion -/

section Expansion

/-- The versions with a body that a listing of the key asks for: the key may go on,
up to a slash. -/
def bodiesListed (key : Str) (vs : List StoredVersion) : List StoredVersion :=
  vs.filter fun v => !v.deleteMarker && decide (key <+: v.key ∧ '/' ∉ v.key.drop key.length)

/-- The URL that a version is listed under. -/
def Url.atVersion (src : Url) (v : StoredVersion) : Url :=
  { src with relativePath := src.relativeOf (shownKey v.key), path := shownKey v.key,
             versionId := v.versionId }

/-- The source URL of a key. -/
def versionsSource (bucket key : Str) : Url :=
  .parsed .remote "s3".toList bucket key { allVersions := true }

variable {bucket key : Str} {vs : List StoredVersion}

theorem mem_bodiesListed {v : StoredVersion} : v ∈ bodiesListed key vs ↔
    v ∈ vs ∧ v.deleteMarker = false ∧ key <+: v.key ∧ '/' ∉ v.key.drop key.length := by
  simp [bodiesListed]

theorem bodiesOf_eq_filter :
    bodiesOf key vs = (bodiesListed key vs).filter fun v => decide (v.key = key) := by
  rw [bodiesListed, List.filter_filter]
  refine List.filter_congr fun v _ => ?_
  by_cases hkey : v.key = key
  · simp [hkey]
  · simp [hkey]

theorem filter_versions (hlit : hasGlobCharacter key = false) :
    (vs.filter fun v => !v.deleteMarker && (listV2Request (versionsSource bucket key)).Covers v.key) =
      bodiesListed key vs := by
  have hpart := Url.globPart_of_literal hlit
  have hdelim : (versionsSource bucket key).delimiter = ['/'] := if_pos hpart
  refine List.filter_congr fun v _ => ?_
  congr 1
  refine decide_eq_decide.mpr ?_
  simp only [ListRequest.Covers, listV2Request, hdelim, nonEmpty]
  show Url.literalPart key <+: v.key ∧ _ ↔ _
  rw [Url.literalPart_of_globPart hpart]
  refine and_congr_right fun _ => ?_
  simp [List.singleton_infix_iff, versionsSource, Url.parsed, Url.literalPart_of_globPart hpart]

/-- **A key with a space is never matched**, and every other one is by its versions
and those of the keys that it begins. -/
theorem listed_version (hlit : hasGlobCharacter key = false) {v : StoredVersion}
    (hv : v ∈ bodiesListed key vs) :
    (((versionsSource bucket key).listed (urlEncode v.key)).map fun u =>
      { u with versionId := v.versionId }) =
      if ' ' ∈ key then none else some ((versionsSource bucket key).atVersion v) := by
  obtain ⟨-, -, ⟨rest, hrest⟩, -⟩ := mem_bodiesListed.mp hv
  have hmatch : (versionsSource bucket key).isMatch (shownKey v.key) = true ↔ ' ' ∉ key := by
    rw [Url.isMatch_literal hlit rfl, ← shownKey_eq_self, ← hrest, shownKey_append]
    constructor
    · rintro ⟨t, ht⟩
      exact (List.append_inj ht (by simp [shownKey])).1
    · intro hkey
      exact ⟨shownKey rest, by rw [hkey]⟩
  unfold Url.listed Url.matches?
  rw [percentDecode_urlEncode]
  show Option.map _ (Option.map _ (if (versionsSource bucket key).isMatch (shownKey v.key) then
    some _ else none)) = _
  by_cases hspace : ' ' ∈ key
  · rw [if_pos hspace, if_neg fun h => hmatch.mp h hspace]
    rfl
  · rw [if_neg hspace, if_pos (hmatch.mpr hspace)]
    rfl

/-- What is kept of the listing. -/
def keptUrls (bucket key : Str) (vs : List StoredVersion) : List Url :=
  if ' ' ∈ key then [] else (bodiesListed key vs).map (versionsSource bucket key).atVersion

theorem perm_keptUrls (hlit : hasGlobCharacter key = false) (hvs : VersionedBucket vs) {s3 : S3}
    (hlist : ListsVersions urlEncode vs (listV2Request (versionsSource bucket key))
      (listObjectVersionsPages s3.listVersions (versionsSource bucket key) s3.fuel none none)) :
    ((s3.list (versionsSource bucket key)).filterMap keptVersion).Perm (keptUrls bucket key vs) := by
  have hversions := hlist.versions
  rw [filter_versions hlit] at hversions
  have hkept := hversions.filterMap fun v => (versionObject (versionsSource bucket key) v).bind keptVersion
  rw [List.filterMap_map] at hkept
  have hversioned : (versionsSource bucket key).isVersioned = true := rfl
  rw [S3.list, if_pos hversioned, listObjectVersions, filterMap_keptVersion]
  refine hkept.trans (List.Perm.of_eq ?_)
  have hone : ∀ v ∈ bodiesListed key vs,
      ((fun v => (versionObject (versionsSource bucket key) v).bind keptVersion) ∘
        StoredVersion.versionEntry urlEncode) v =
        if ' ' ∈ key then none else some ((versionsSource bucket key).atVersion v) := by
    intro v hv
    rw [Function.comp_apply, keptVersion_versionEntry rfl (hvs.id v (mem_bodiesListed.mp hv).1).1,
      listed_version hlit hv]
  rw [List.filterMap_congr hone, keptUrls]
  split
  · exact List.filterMap_eq_nil_iff.mpr fun _ _ => rfl
  · exact List.filterMap_eq_map ▸ rfl

/-- The destinations of the versions of one key are told apart. -/
theorem nodup_destinations (hvs : VersionedBucket vs) {dst : Url} {dstIsDir : Bool} {us : List Url}
    (hus : us.Perm (keptUrls bucket key vs))
    (hone : ∀ v ∈ bodiesListed key vs, v.key = key ↔ ' ' ∉ key) :
    (us.map fun u => (versionedDest u dst dstIsDir).target).Nodup := by
  rw [(hus.map _).nodup_iff, keptUrls]
  split
  · exact List.nodup_nil
  · rename_i hspace
    rw [List.map_map]
    refine List.Nodup.map_on (fun v hv w hw h => ?_) (hvs.once.of_map.filter _)
    have hvkey := (hone v hv).mpr hspace
    have hwkey := (hone w hw).mpr hspace
    have hv' := (mem_bodiesListed.mp hv).1
    have hw' := (mem_bodiesListed.mp hw).1
    have hids := versionedDest_inj (u := (versionsSource bucket key).atVersion v)
      (v := (versionsSource bucket key).atVersion w)
      (by simp [Url.base, Url.atVersion, hvkey, hwkey, versionsSource, Url.parsed, Url.blank, Url.isRemote])
      (remoteBase_cases _) (hvs.id v hv').2 (hvs.id w hw').2 h
    exact List.inj_on_of_nodup_map hvs.once hv' hw' (Prod.ext (hvkey.trans hwkey.symm) hids)

/-- The sources are those of the versions of the key just when the versions of the
listing are, which they are not where the key has a space. -/
theorem sources_iff : ((keptUrls bucket key vs).map fun u => (u.bucket, u.path, u.versionId)).Perm
      ((bodiesOf key vs).map fun v => (bucket, key, v.versionId)) ↔
    ∀ v ∈ bodiesListed key vs, v.key = key ↔ ' ' ∉ key := by
  rw [bodiesOf_eq_filter, keptUrls]
  by_cases hspace : ' ' ∈ key
  · simp [hspace]
  · rw [if_neg hspace, List.map_map]
    simp only [hspace, not_false_eq_true, iff_true]
    constructor
    · intro h v hv
      obtain ⟨-, -, ⟨rest, hrest⟩, -⟩ := mem_bodiesListed.mp hv
      have hmem := h.subset (List.mem_map_of_mem hv)
      obtain ⟨w, -, hw⟩ := List.mem_map.mp hmem
      -- what is shown of a longer key is longer
      have hshown : key = shownKey v.key := (Prod.ext_iff.mp (Prod.ext_iff.mp hw).2).1
      have hlen := congrArg List.length hshown
      rw [← hrest, shownKey, List.length_map, List.length_append] at hlen
      have hnil : rest = [] := List.eq_nil_of_length_eq_zero (by omega)
      rw [← hrest, hnil, List.append_nil]
    · intro h
      rw [List.filter_eq_self.mpr fun v hv => decide_eq_true (h v hv)]
      refine List.Perm.of_eq (List.map_congr_left fun v hv => ?_)
      show (bucket, shownKey v.key, v.versionId) = _
      rw [h v hv, shownKey_eq_self.mpr hspace]

/-- **When all versions of a key are copied and no other, exactly**: every version with
a body that the listing asks for is one of the key, which has no space; a key with a
space has none. -/
theorem expand_all_versions_iff {b : Backend} {s3 : S3} (hb : Url.BucketName bucket)
    (hlit : hasGlobCharacter key = false) {src : Url}
    (hsrc : Url.new ("s3://".toList ++ (bucket ++ '/' :: key)) { allVersions := true } = .ok src)
    (hs3 : b.newS3 src = .ok s3) (hvs : VersionedBucket vs)
    (hlist : ListsVersions urlEncode vs (listV2Request src)
      (listObjectVersionsPages s3.listVersions src s3.fuel none none))
    (dst : Url) (followSymlinks : Bool) (filters : Filters) :
    (∃ pairs, expandSources b src dst followSymlinks filters = .ok pairs ∧
        CopiesVersions bucket key vs pairs) ↔
      ∀ v ∈ vs, v.deleteMarker = false → ∀ rest, v.key = key ++ rest → '/' ∉ rest →
        (rest = [] ↔ ' ' ∉ key) := by
  obtain rfl := Except.ok.inj (hsrc.symm.trans (Url.new_remote hb key rfl))
  have hkept := perm_keptUrls hlit hvs hlist
  have hrun : expandSources b (versionsSource bucket key) dst followSymlinks filters =
      .ok (expandAllVersions b.fs dst (s3.list (versionsSource bucket key))) := by
    have hremote : (versionsSource bucket key).isRemote = true := rfl
    have hclient : b.newClient (versionsSource bucket key) = .ok (.remote s3) := by
      rw [Backend.newClient, if_pos hremote, versionsSource, hs3]
      rfl
    have hexp : expandsVersions (versionsSource bucket key) = true := by
      show (true && true && !(true && hasGlobCharacter key)) = true
      rw [hlit]
      rfl
    unfold expandSources
    rw [hclient]
    simp only [bind, Except.bind, hexp, if_true, pure, Except.pure]
    rfl
  have hcond : (∀ v ∈ bodiesListed key vs, v.key = key ↔ ' ' ∉ key) ↔
      ∀ v ∈ vs, v.deleteMarker = false → ∀ rest, v.key = key ++ rest → '/' ∉ rest →
        (rest = [] ↔ ' ' ∉ key) := by
    constructor
    · intro h v hv hbody rest hrest hslash
      have := h v (mem_bodiesListed.mpr ⟨hv, hbody, ⟨rest, hrest.symm⟩, by simpa [hrest] using hslash⟩)
      simpa [hrest] using this
    · intro h v hv
      obtain ⟨hmem, hbody, ⟨rest, hrest⟩, hslash⟩ := mem_bodiesListed.mp hv
      rw [← hrest, List.drop_left] at hslash
      have := h v hmem hbody rest hrest.symm hslash
      simpa [← hrest] using this
  have hpairs : ∀ {β : Type} (f : Url × Url → β),
      (expandAllVersions b.fs dst (s3.list (versionsSource bucket key))).map f =
        ((s3.list (versionsSource bucket key)).filterMap keptVersion).map fun u =>
          f (u, versionedDest u dst (destIsDirLike b.fs dst)) := by
    intro β f
    rw [expandAllVersions, List.map_map]
    rfl
  rw [← hcond, ← sources_iff]
  constructor
  · rintro ⟨pairs, hok, hcopies⟩
    obtain rfl := Except.ok.inj (hrun.symm.trans hok)
    have hsources := hcopies.sources
    rw [hpairs] at hsources
    exact (hkept.map _).symm.trans hsources
  · intro h
    refine ⟨_, hrun, ⟨?_, ?_⟩⟩
    · rw [hpairs]
      exact (hkept.map _).trans h
    · rw [hpairs]
      exact nodup_destinations hvs hkept (sources_iff.mp h)

end Expansion

namespace AllVersionsSample

def version (key vid : String) : StoredVersion where
  key := key.toList
  size := 3
  versionId := vid.toList

/-- A store that answers with one page. -/
def s3 (vs : List StoredVersion) : S3 where
  listPages _ := []
  listV1 _ := .error .noObjectFound
  listVersions req := .ok
    { versions := (vs.filter fun v => !v.deleteMarker && req.Covers v.key).map
        (StoredVersion.versionEntry urlEncode)
      deleteMarkers := (vs.filter fun v => v.deleteMarker && req.Covers v.key).map
        (StoredVersion.versionEntry urlEncode) }
  headObject _ _ _ := .ok none
  fuel := 1

def backend (vs : List StoredVersion) : Backend where
  newS3 _ := .ok (s3 vs)
  fs := .empty

theorem listsVersions (vs : List StoredVersion) (src : Url) :
    ListsVersions urlEncode vs (listV2Request src)
      (listObjectVersionsPages (s3 vs).listVersions src (s3 vs).fuel none none) := by
  constructor
  · exact List.Perm.of_eq (List.append_nil _)
  · exact List.Perm.of_eq (List.append_nil _)

theorem bucketName : Url.BucketName "b".toList := ⟨by decide, by decide, by decide⟩

/-- Two versions of `k`, an old delete marker and another key. -/
def apart : List StoredVersion :=
  [version "k" "v1", version "k" "null", { version "k" "v3" with deleteMarker := true },
    version "l" "v4"]

/-- The local path `out`. -/
def out : Url := .blank .loc [] [] "out".toList {}

/-- `cp --all-versions s3://b/k out` copies the two. -/
theorem expand_all_versions_apart :
    ∃ pairs, expandSources (backend apart) (versionsSource "b".toList "k".toList) out false noFilters =
      .ok pairs ∧ CopiesVersions "b".toList "k".toList apart pairs := by
  refine (expand_all_versions_iff bucketName (by decide) (Url.new_remote bucketName _ rfl) rfl
    ⟨by decide, by decide⟩ (listsVersions _ _) out false noFilters).mpr ?_
  intro v hv _ rest hrest _
  have hshort : ∀ v ∈ apart, v.key.length = 1 := by decide
  have hlen := hshort v hv
  rw [hrest, List.length_append] at hlen
  refine iff_of_true (List.eq_nil_of_length_eq_zero ?_) (by decide)
  have hkey : "k".toList.length = 1 := by decide
  omega

/-- A version of `k` and one of `k.bak`. -/
def beside : List StoredVersion := [version "k" "v1", version "k.bak" "v2"]

/-- `cp --all-versions s3://b/k out` copies `k.bak` too. -/
theorem expand_all_versions_beside :
    VersionedBucket beside ∧
      ListsVersions urlEncode beside (listV2Request (versionsSource "b".toList "k".toList))
        (listObjectVersionsPages (s3 beside).listVersions (versionsSource "b".toList "k".toList)
          (s3 beside).fuel none none) ∧
      ¬ ∃ pairs, expandSources (backend beside) (versionsSource "b".toList "k".toList) out false
        noFilters = .ok pairs ∧ CopiesVersions "b".toList "k".toList beside pairs := by
  refine ⟨⟨by decide, by decide⟩, listsVersions _ _, ?_⟩
  rintro ⟨pairs, hok, hcopies⟩
  have hlen : (bodiesOf "k".toList beside).length = 1 := by decide
  have htwo : (expandSources (backend beside) (versionsSource "b".toList "k".toList) out false
      noFilters).map List.length = .ok 2 := by
    decide +kernel
  rw [hok] at htwo
  have := hcopies.sources.length_eq
  rw [List.length_map, List.length_map, hlen, Except.ok.inj htwo] at this
  cases this

end AllVersionsSample

end Rs5cmd
