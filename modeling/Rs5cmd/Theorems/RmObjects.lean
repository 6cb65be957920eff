import Rs5cmd.Theorems.ListKeys
import Rs5cmd.Theorems.ListV1
import Rs5cmd.Theorems.MultiDelete

/-!
# What `rm` deletes

A target that expands is listed, and the feeder forwards whatever has a URL. That
includes the common prefixes of a listing with a delimiter: the marker object of a
subdirectory is deleted with the objects next to it.
-/

namespace Rs5cmd

/-! ## The common prefixes a listing reads -/

/-- The pages before the first failure. -/
def okPages : List (Except StorageError Page) → List Page
  | [] => []
  | .error _ :: _ => []
  | .ok page :: rest => page :: okPages rest

/-- The common prefixes on the pages that a listing of `src` reads. -/
def S3.prefixesRead (s3 : S3) (src : Url) : List (Option Str) :=
  if src.isVersioned then
    (listObjectVersionsPages s3.listVersions src s3.fuel none none).flatMap
      VersionsPage.commonPrefixes
  else if s3.useListObjectsV1 then
    (listObjectsV1Pages s3.listV1 src s3.fuel none).flatMap Page.commonPrefixes
  else (okPages (s3.listPages (listV2Request src))).flatMap Page.commonPrefixes

/-- What a key is rolled up into: its part up to the first delimiter after the prefix. -/
def ListRequest.commonPrefixOf (req : ListRequest) (key : Str) : Option Str :=
  (Str.stripPrefix req.keyPrefix key).bind fun rest =>
    req.delimiter.bind fun d => (Str.splitOnce d rest).map fun ab => req.keyPrefix ++ (ab.1 ++ d)

/-- The common prefixes read are those of the keys. -/
def RollsUp (enc : Str → Str) (req : ListRequest) (keys : List Str) (read : List (Option Str)) :
    Prop :=
  ∀ p, p ∈ read ↔ ∃ key ∈ keys, ∃ cp, req.commonPrefixOf key = some cp ∧ p = some (enc cp)

section Dirs

variable {src : Url} {obj : Object}

theorem file_of_content {c : Entry} (h : contentObject src c = some obj) : obj.typ = .file := by
  obtain ⟨u, -, rfl⟩ := Option.map_eq_some_iff.mp h
  rfl

/-- The end of a listing is no directory. -/
theorem not_dir_of_mem_listEnd {found : Bool} (h : obj ∈ listEnd src found) : obj.typ ≠ .dir := by
  unfold listEnd at h
  split at h
  · rw [List.mem_singleton.mp h]
    intro hdir
    cases hdir
  · cases h

theorem mem_pageObjects_dir {page : Page} (hdir : obj.typ = .dir) :
    obj ∈ pageObjects src page ↔ ∃ p ∈ page.commonPrefixes, commonPrefixObject src p = some obj := by
  rw [pageObjects, List.mem_append, List.mem_filterMap, List.mem_filterMap]
  refine or_iff_left ?_
  rintro ⟨c, -, hc⟩
  rw [file_of_content hc] at hdir
  cases hdir

theorem mem_versionsPageObjects_dir {page : VersionsPage} (hdir : obj.typ = .dir) :
    obj ∈ versionsPageObjects src page ↔
      ∃ p ∈ page.commonPrefixes, commonPrefixObject src p = some obj := by
  rw [versionsPageObjects, List.mem_append, List.mem_append, List.mem_filterMap, List.mem_filterMap,
    List.mem_filterMap, or_assoc]
  refine or_iff_left ?_
  rintro (⟨v, -, hv⟩ | ⟨d, -, hd⟩)
  · obtain ⟨u, -, rfl⟩ := Option.map_eq_some_iff.mp hv
    cases hdir
  · obtain ⟨u, -, rfl⟩ := Option.map_eq_some_iff.mp hd
    cases hdir

theorem mem_listV2Go_dir {found : Bool} {pages : List (Except StorageError Page)}
    (hdir : obj.typ = .dir) :
    obj ∈ listV2Go src found pages ↔ ∃ page ∈ okPages pages, obj ∈ pageObjects src page := by
  induction pages generalizing found with
  | nil =>
    refine iff_of_false (fun h => not_dir_of_mem_listEnd h hdir) ?_
    rintro ⟨page, hpage, -⟩
    cases hpage
  | cons page pages ih =>
    cases page with
    | error e =>
      refine iff_of_false (fun h => ?_) ?_
      · rw [List.mem_singleton.mp h] at hdir
        cases hdir
      · rintro ⟨page, hpage, -⟩
        cases hpage
    | ok page =>
      rw [listV2Go, okPages, List.mem_append, ih]
      simp only [List.mem_cons, exists_eq_or_imp]

theorem mem_listObjectsV1Go_dir {server : ListRequest → Except StorageError Page} {fuel : Nat}
    {marker : Option Str} {found : Bool} (hdir : obj.typ = .dir) :
    obj ∈ listObjectsV1Go server src fuel marker found ↔
      ∃ page ∈ listObjectsV1Pages server src fuel marker, obj ∈ pageObjects src page := by
  refine ⟨fun h => ?_, fun ⟨page, hpage, h⟩ => mem_listObjectsV1Go_of_mem_page hpage h⟩
  induction fuel generalizing marker found with
  | zero => cases h
  | succ fuel ih =>
    unfold listObjectsV1Go at h
    unfold listObjectsV1Pages
    cases hpage : server { bucket := src.bucket, keyPrefix := src.keyPrefix,
                           delimiter := nonEmpty src.delimiter, marker := marker } with
    | error e =>
      rw [hpage] at h
      rw [List.mem_singleton.mp h] at hdir
      cases hdir
    | ok page =>
      rw [hpage] at h
      rcases List.mem_append.mp h with h | h
      · exact ⟨page, List.mem_cons_self, h⟩
      · split at h
        · rename_i htrunc
          split at h
          · exact absurd hdir (not_dir_of_mem_listEnd h)
          · rename_i m hm
            obtain ⟨page', hpage', h⟩ := ih h
            refine ⟨page', List.mem_cons_of_mem _ ?_, h⟩
            simp only [htrunc, if_true, hm]
            exact hpage'
        · exact absurd hdir (not_dir_of_mem_listEnd h)

theorem mem_listObjectVersionsGo_dir {server : ListRequest → Except StorageError VersionsPage}
    {fuel : Nat} {keyMarker versionMarker : Option Str} {found : Bool} (hdir : obj.typ = .dir) :
    obj ∈ listObjectVersionsGo server src fuel keyMarker versionMarker found ↔
      ∃ page ∈ listObjectVersionsPages server src fuel keyMarker versionMarker,
        obj ∈ versionsPageObjects src page := by
  refine ⟨fun h => ?_, fun ⟨page, hpage, h⟩ => mem_listObjectVersionsGo_of_mem_page hpage h⟩
  induction fuel generalizing keyMarker versionMarker found with
  | zero => cases h
  | succ fuel ih =>
    unfold listObjectVersionsGo at h
    unfold listObjectVersionsPages
    cases hpage : server { bucket := src.bucket, keyPrefix := src.keyPrefix,
                           delimiter := nonEmpty src.delimiter, marker := keyMarker,
                           versionIdMarker := versionMarker } with
    | error e =>
      rw [hpage] at h
      rw [List.mem_singleton.mp h] at hdir
      cases hdir
    | ok page =>
      rw [hpage] at h
      rcases List.mem_append.mp h with h | h
      · exact ⟨page, List.mem_cons_self, h⟩
      · split at h
        · rename_i htrunc
          dsimp only at h
          split at h
          · exact absurd hdir (not_dir_of_mem_listEnd h)
          · rename_i hmarkers
            obtain ⟨page', hpage', h⟩ := ih h
            refine ⟨page', List.mem_cons_of_mem _ ?_, h⟩
            simp only [htrunc, if_true]
            rw [if_neg hmarkers]
            exact hpage'
        · exact absurd hdir (not_dir_of_mem_listEnd h)

theorem exists_mem_flatMap {α β : Type} {l : List α} {f : α → List β} {P : β → Prop} :
    (∃ y ∈ l.flatMap f, P y) ↔ ∃ x ∈ l, ∃ y ∈ f x, P y := by
  simp only [List.mem_flatMap]
  exact ⟨fun ⟨y, ⟨x, hx, hy⟩, h⟩ => ⟨x, hx, y, hy, h⟩, fun ⟨x, hx, y, hy, h⟩ => ⟨y, ⟨x, hx, hy⟩, h⟩⟩

/-- **The directories of a listing** are the common prefixes that the URL accepts,
whichever lister runs and wherever it fails. -/
theorem S3.mem_list_dir {s3 : S3} (hdir : obj.typ = .dir) :
    obj ∈ s3.list src ↔ ∃ p ∈ s3.prefixesRead src, commonPrefixObject src p = some obj := by
  unfold S3.list S3.prefixesRead
  split
  · rw [listObjectVersions, mem_listObjectVersionsGo_dir hdir, exists_mem_flatMap]
    exact exists_congr fun page => and_congr_right fun _ => mem_versionsPageObjects_dir hdir
  · split
    · rw [listObjectsV1, mem_listObjectsV1Go_dir hdir, exists_mem_flatMap]
      exact exists_congr fun page => and_congr_right fun _ => mem_pageObjects_dir hdir
    · rw [listV2, mem_listV2Go_dir hdir, exists_mem_flatMap]
      exact exists_congr fun page => and_congr_right fun _ => mem_pageObjects_dir hdir

end Dirs

/-! ## Conforming servers -/

section Conforming

variable {enc : Str → Str} {req : ListRequest} {objs : List StoredObject}

/-- A key is rolled up where its object is not listed. -/
theorem itemOf_eq_commonPrefix {o : StoredObject} {p : Str} :
    req.itemOf o = some (.commonPrefix p) ↔ req.commonPrefixOf o.key = some p := by
  unfold ListRequest.itemOf ListRequest.commonPrefixOf
  cases Str.stripPrefix req.keyPrefix o.key with
  | none => simp
  | some rest =>
    cases req.delimiter with
    | none => simp
    | some d => cases hcut : Str.splitOnce d rest <;> simp [hcut]

/-- Both listers read the pages that the server answers with. -/
theorem prefixesRead_of_answers {s3 : S3} {src : Url} {pages : List (Except StorageError Page)}
    (h : s3.Answers src pages) (hv : src.isVersioned = false) :
    s3.prefixesRead src = (okPages pages).flatMap Page.commonPrefixes := by
  have hgo : ∀ {marker : Option Str} {pages : List (Except StorageError Page)} {fuel : Nat},
      V1Answers s3.listV1 src marker pages → pages.length ≤ fuel →
      listObjectsV1Pages s3.listV1 src fuel marker = okPages pages := by
    intro marker pages fuel h hfuel
    induction h generalizing fuel with
    | failed hpage =>
      obtain ⟨n, rfl⟩ : ∃ n, fuel = n + 1 := ⟨fuel - 1, by simp at hfuel; omega⟩
      simp [listObjectsV1Pages, hpage, okPages]
    | last hpage hlast =>
      obtain ⟨n, rfl⟩ : ∃ n, fuel = n + 1 := ⟨fuel - 1, by simp at hfuel; omega⟩
      simp [listObjectsV1Pages, hpage, hlast, okPages]
    | next hpage htrunc hmarker hrest ih =>
      obtain ⟨n, rfl⟩ : ∃ n, fuel = n + 1 := ⟨fuel - 1, by simp at hfuel; omega⟩
      have hn := ih (by simpa using hfuel)
      simp [listObjectsV1Pages, hpage, htrunc, hmarker, okPages, hn]
  unfold S3.prefixesRead
  unfold S3.Answers at h
  rw [hv, if_neg Bool.false_ne_true]
  split
  · rename_i hv1
    rw [if_pos hv1] at h
    rw [hgo h.1 h.2]
  · rename_i hv1
    rw [if_neg hv1] at h
    rw [h]

/-- **A conforming listing rolls up the keys of the bucket.** -/
theorem rollsUp_of_answers {s3 : S3} {src : Url} {ps : List Page} (h : s3.Answers src (ps.map .ok))
    (hv : src.isVersioned = false) (hps : PagesOf enc ((listV2Request src).items objs) ps) :
    RollsUp enc (listV2Request src) (objs.map StoredObject.key) (s3.prefixesRead src) := by
  have hok : ∀ ps : List Page, okPages (ps.map .ok) = ps := by
    intro ps
    induction ps with
    | nil => rfl
    | cons page ps ih => rw [List.map_cons, okPages, ih]
  have hprefixes : ps.flatMap Page.commonPrefixes =
      ((listV2Request src).items objs).filterMap (ListItem.encodedPrefix enc) := by
    obtain ⟨chunks, hchunks, hall⟩ := hps
    rw [← hchunks]
    clear hchunks h
    induction hall with
    | nil => rfl
    | cons hpage _ ih =>
      rw [List.flatMap_cons, List.flatten_cons, List.filterMap_append, hpage.commonPrefixes, ih]
  intro p
  rw [prefixesRead_of_answers h hv, hok, hprefixes, List.mem_filterMap]
  constructor
  · rintro ⟨it, hit, hp⟩
    obtain ⟨o, ho, hitem⟩ := mem_items.mp hit
    cases it with
    | object o' => cases hp
    | commonPrefix cp =>
      exact ⟨o.key, List.mem_map_of_mem ho, cp, itemOf_eq_commonPrefix.mp hitem,
        (Option.some.inj hp).symm⟩
  · rintro ⟨key, hkey, cp, hcut, rfl⟩
    obtain ⟨o, ho, rfl⟩ := List.mem_map.mp hkey
    exact ⟨.commonPrefix cp, mem_items.mpr ⟨o, ho, itemOf_eq_commonPrefix.mpr hcut⟩, rfl⟩

end Conforming

/-! ## What a target submits -/

/-- The URLs that were submitted for deletion. -/
def TargetReport.submitted (r : TargetReport) : List Url := r.results.filterMap OpReport.url

/-- What was listed. -/
def TargetReport.listed (r : TargetReport) : List Object := r.listing.getD []

/-- What a target deletes is what it names, or else listed as an object; a directory
is not deleted. -/
structure DeletesObjects (url : Url) (r : TargetReport) : Prop where
  listed : ∀ u ∈ r.submitted, (rmExpands url = false ∧ u = url) ∨
    ∃ obj ∈ r.listed, obj.typ = .file ∧ obj.url.map Url.path = some u.path
  spared : ∀ obj ∈ r.listed, obj.typ = .dir → ∀ u ∈ r.submitted, obj.url.map Url.path ≠ some u.path

section Target

variable {b : Backend} {del : Deletions} {args : RmArgs} {filters : Filters} {target : Str} {url : Url}
  {s3 : S3} {report : TargetReport}

/-- The batches submit what the feeder forwards. -/
theorem submitted_rmRemote (objs : List Object) :
    (rmRemote del filters objs).submitted = objs.filterMap (fedUrl filters) := by
  have hbatch : ∀ urls : List Url,
      (urls.map fun u => (⟨some u, del.deleted urls u⟩ : OpReport)).filterMap OpReport.url = urls := by
    intro urls
    rw [List.filterMap_map]
    exact List.filterMap_some
  rw [TargetReport.submitted, rmRemote, List.filterMap_flatMap]
  simp only [hbatch]
  rw [List.flatMap_id', flatten_batches_nil]

/-- A remote target deletes what it names, or submits its listing. -/
theorem rmTarget_remote (h : rmTarget b del args filters target = .ok report)
    (hurl : Url.new target { raw := args.raw, versionId := args.versionId } = .ok url)
    (hremote : url.isRemote = true) (hs3 : b.newS3 url = .ok s3) :
    if rmExpands url then report = rmRemote del filters (s3.list url)
    else report.submitted = [url] ∧ report.listed = [] := by
  have hclient : b.newClient url = .ok (.remote s3) := by
    rw [Backend.newClient, if_pos hremote, hs3]
    rfl
  have hmap : (Url.new target { raw := args.raw, versionId := args.versionId }).mapError
      StorageError.msg = .ok url := by
    rw [hurl]
    rfl
  unfold rmTarget at h
  rw [hmap] at h
  obtain ⟨u, hu, h⟩ := Except.bind_eq_ok_iff.mp h
  obtain rfl := Except.ok.inj hu
  obtain ⟨client, hc, h⟩ := Except.bind_eq_ok_iff.mp h
  obtain rfl := Except.ok.inj (hclient.symm.trans hc)
  cases hexp : rmExpands url with
  | false =>
    rw [hexp, Bool.not_false, if_pos rfl] at h
    obtain rfl := Except.ok.inj h
    exact ⟨rfl, rfl⟩
  | true =>
    rw [hexp, Bool.not_true, if_neg Bool.false_ne_true, if_pos hremote] at h
    exact (Except.ok.inj h).symm

/-- A listed URL is that of the target at another path, and perhaps at a version. -/
theorem exists_eq_of_listed {obj : Object} (hobj : obj ∈ s3.list url) {u : Url}
    (hu : obj.url = some u) : ∃ vid, u =
      { url with relativePath := url.relativeOf u.path, path := u.path, versionId := vid } := by
  rcases S3.listedFrom hobj with herr | ⟨-, raw, w, hw, hw'⟩
  · rw [((S3.listOrigin hobj).of_url hu).1] at herr
    cases herr
  · obtain ⟨-, rfl⟩ := Url.listed_eq_some.mp hw
    rcases hw' with hw' | ⟨vid, hw'⟩
    · obtain rfl := Option.some.inj (hu.symm.trans hw')
      exact ⟨url.versionId, rfl⟩
    · obtain rfl := Option.some.inj (hu.symm.trans hw')
      exact ⟨vid, rfl⟩

/-- The filters see the path of a listed URL only. -/
theorem filterKey_of_listed {obj obj' : Object} (hobj : obj ∈ s3.list url) (hobj' : obj' ∈ s3.list url)
    {u v : Url} (hu : obj.url = some u) (hv : obj'.url = some v) (hpath : u.path = v.path) :
    filterKey u = filterKey v := by
  obtain ⟨vid, hform⟩ := exists_eq_of_listed hobj hu
  obtain ⟨vid', hform'⟩ := exists_eq_of_listed hobj' hv
  rw [hform, hform', hpath]
  rfl

/-- The feeder keeps the URL it forwards. -/
theorem fedUrl_eq_some {obj : Object} {u : Url} :
    fedUrl filters obj = some u ↔ obj.url = some u ∧ filters.shouldSkip (filterKey u) = false := by
  unfold fedUrl
  cases obj.url with
  | none => simp
  | some v =>
    constructor
    · intro h
      dsimp only at h
      split at h
      · cases h
      · rename_i hskip
        obtain rfl := Option.some.inj h
        exact ⟨rfl, Bool.eq_false_iff.mpr hskip⟩
    · rintro ⟨hv, hskip⟩
      obtain rfl := Option.some.inj hv
      dsimp only
      rw [hskip, if_neg Bool.false_ne_true]

/-- A listing that is submitted spares its directories just when the feeder keeps
them all back. -/
theorem deletesObjects_rmRemote :
    DeletesObjects url (rmRemote del filters (s3.list url)) ↔
      ∀ obj ∈ s3.list url, obj.typ = .dir → fedUrl filters obj = none := by
  constructor
  · intro h obj hobj hdir
    cases hfed : fedUrl filters obj with
    | none => rfl
    | some u =>
      refine absurd (congrArg _ (fedUrl_eq_some.mp hfed).1) (h.spared obj hobj hdir u ?_)
      rw [submitted_rmRemote]
      exact List.mem_filterMap.mpr ⟨obj, hobj, hfed⟩
  · intro h
    refine ⟨fun u hu => .inr ?_, fun obj hobj hdir u hu => ?_⟩
    · rw [submitted_rmRemote] at hu
      obtain ⟨obj, hobj, hfed⟩ := List.mem_filterMap.mp hu
      have hurl := (fedUrl_eq_some.mp hfed).1
      refine ⟨obj, hobj, ((S3.listOrigin hobj).of_url hurl).2.resolve_left fun hdir => ?_,
        congrArg _ hurl⟩
      rw [h obj hobj hdir] at hfed
      cases hfed
    · rw [submitted_rmRemote] at hu
      obtain ⟨obj', hobj', hfed⟩ := List.mem_filterMap.mp hu
      obtain ⟨hurl', hskip⟩ := fedUrl_eq_some.mp hfed
      intro hpath
      obtain ⟨v, hv, hpath⟩ := Option.map_eq_some_iff.mp hpath
      rw [← filterKey_of_listed hobj hobj' hv hurl' hpath] at hskip
      have hnone := h obj hobj hdir
      rw [fedUrl_eq_some.mpr ⟨hv, hskip⟩] at hnone
      cases hnone

/-- **What the store is asked to delete**: the keys that were submitted. -/
theorem multiDelete_submitted (server : DeleteServer) :
    (multiDelete false server (rmRemote del filters (s3.list url)).submitted).requests.flatMap
        DeleteRequest.named =
      (rmRemote del filters (s3.list url)).submitted.map fun u => (url.bucket, u.path, []) := by
  refine multiDelete_named fun u hu => ?_
  rw [submitted_rmRemote] at hu
  obtain ⟨obj, hobj, hfed⟩ := List.mem_filterMap.mp hu
  obtain ⟨hurl, -⟩ := fedUrl_eq_some.mp hfed
  obtain ⟨vid, hform⟩ := exists_eq_of_listed hobj hurl
  rw [hform]

/-- **When a target deletes objects only, exactly**: it names one key, or each
directory that a key of its listing is in is unknown to its URL or filtered out. -/
theorem rm_deletes_objects_iff (h : rmTarget b del args filters target = .ok report)
    (hurl : Url.new target { raw := args.raw, versionId := args.versionId } = .ok url)
    (hremote : url.isRemote = true) (hs3 : b.newS3 url = .ok s3) {keys : List Str}
    (hkeys : RollsUp urlEncode (listV2Request url) keys (s3.prefixesRead url)) :
    DeletesObjects url report ↔ rmExpands url = false ∨
      ∀ key ∈ keys, ∀ dir, (listV2Request url).commonPrefixOf key = some dir →
        ∀ u, url.listed (urlEncode dir) = some u → filters.shouldSkip (filterKey u) = true := by
  have hreport := rmTarget_remote h hurl hremote hs3
  cases hexp : rmExpands url with
  | false =>
    rw [hexp, if_neg Bool.false_ne_true] at hreport
    refine iff_of_true ⟨fun u hu => .inl ⟨hexp, ?_⟩, fun obj hobj => ?_⟩ (.inl rfl)
    · rw [hreport.1] at hu
      exact List.mem_singleton.mp hu
    · rw [hreport.2] at hobj
      cases hobj
  | true =>
    rw [hexp, if_pos rfl] at hreport
    subst hreport
    rw [deletesObjects_rmRemote, or_iff_right (by decide)]
    constructor
    · intro h key hkey dir hdir u hu
      have hobj : commonPrefixObject url (some (urlEncode dir)) = some { url := some u, typ := .dir } := by
        rw [commonPrefixObject, Option.bind_some, hu]
        rfl
      have hmem := (S3.mem_list_dir rfl).mpr
        ⟨_, (hkeys _).mpr ⟨key, hkey, dir, hdir, rfl⟩, hobj⟩
      rw [← Bool.not_eq_false]
      intro hskip
      have hnone := h _ hmem rfl
      rw [fedUrl_eq_some.mpr ⟨rfl, hskip⟩] at hnone
      cases hnone
    · intro h obj hobj hdir
      obtain ⟨p, hp, hobj'⟩ := (S3.mem_list_dir hdir).mp hobj
      obtain ⟨key, hkey, dir, hcut, rfl⟩ := (hkeys p).mp hp
      obtain ⟨u, hu, rfl⟩ := Option.map_eq_some_iff.mp hobj'
      rw [Option.eq_none_iff_forall_not_mem]
      intro v hv
      obtain ⟨hv, hskip⟩ := fedUrl_eq_some.mp hv
      obtain rfl := Option.some.inj hv
      rw [h key hkey dir hcut _ hu] at hskip
      cases hskip

end Target

namespace RmObjectsSample

def objs (keys : List String) : List StoredObject :=
  keys.map fun k => { key := k.toList, size := 3 }

def s3 (keys : List String) : S3 where
  listPages := serveListV2 urlEncode (objs keys)
  listV1 _ := .error .noObjectFound
  listVersions _ := .error .noObjectFound
  headObject _ _ _ := .ok none
  fuel := 1

def backend (keys : List String) : Backend where
  newS3 _ := .ok (s3 keys)
  fs := .empty

def del : Deletions where
  delete _ := .ok ()
  deleteObjects _ := .ok fun _ => none

/-- The target `s3://b/d/`. -/
def url : Url := .parsed .remote "s3".toList "b".toList "d/".toList {}

def args : RmArgs where
  targets := ["s3://b/d/".toList]

/-- What `rm s3://b/d/` submits from the bucket with these keys. -/
def report (keys : List String) : TargetReport := rmRemote del noFilters ((s3 keys).list url)

theorem rmTarget_report (keys : List String) :
    rmTarget (backend keys) del args noFilters "s3://b/d/".toList = .ok (report keys) := rfl

theorem rollsUp_keys (keys : List String) : RollsUp urlEncode (listV2Request url)
    ((objs keys).map StoredObject.key) ((s3 keys).prefixesRead url) := by
  obtain ⟨ps, hpages, hps⟩ := answersListV2_serve urlEncode (objs keys) (listV2Request url) rfl
  exact rollsUp_of_answers hpages rfl hps

theorem url_parsed : Url.new "s3://b/d/".toList { raw := args.raw, versionId := args.versionId } =
    .ok url :=
  have hb : Url.BucketName "b".toList := ⟨by decide, by decide, by decide⟩
  Url.parse_remote hb "d/".toList

/-- All the keys are in the directory itself. -/
theorem rm_deletes_objects_flat : DeletesObjects url (report ["d/x", "d/y", "e/z"]) := by
  refine (rm_deletes_objects_iff (rmTarget_report ["d/x", "d/y", "e/z"]) url_parsed rfl rfl
    (rollsUp_keys _)).mpr (.inr ?_)
  intro key hkey dir hdir
  have hno : ∀ key ∈ (objs ["d/x", "d/y", "e/z"]).map StoredObject.key,
      (listV2Request url).commonPrefixOf key = none := by
    decide +kernel
  rw [hno key hkey] at hdir
  cases hdir

/-- `rm s3://b/d/` deletes the marker object of the directory `d/sub/`. -/
theorem rm_deletes_marker :
    rmTarget (backend ["d/sub/", "d/x"]) del args noFilters "s3://b/d/".toList =
        .ok (report ["d/sub/", "d/x"]) ∧
      AnswersListV2 urlEncode (objs ["d/sub/", "d/x"]) (s3 ["d/sub/", "d/x"]).listPages ∧
      ¬ DeletesObjects url (report ["d/sub/", "d/x"]) := by
  refine ⟨rmTarget_report _, answersListV2_serve urlEncode _, fun h => ?_⟩
  have hlisted : ((report ["d/sub/", "d/x"]).listed.any fun obj =>
      obj.typ == .dir && (obj.url.map Url.path == some "d/sub/".toList)) = true := by
    decide +kernel
  have hsubmitted : ((report ["d/sub/", "d/x"]).submitted.any fun u =>
      u.path == "d/sub/".toList) = true := by
    decide +kernel
  obtain ⟨obj, hobj, hdir⟩ := List.any_eq_true.mp hlisted
  obtain ⟨u, hu, hpath⟩ := List.any_eq_true.mp hsubmitted
  rw [Bool.and_eq_true, beq_iff_eq, beq_iff_eq] at hdir
  rw [beq_iff_eq] at hpath
  exact h.spared obj hobj hdir.1 u hu (hdir.2.trans (congrArg some hpath.symm))

end RmObjectsSample

end Rs5cmd
