import Rs5cmd.Storage.S3.Server

/-!
# The keys a listing reports

A listing asks for URL-encoded keys and percent-decodes what it is sent. The
service sends a space as `+`, which percent decoding leaves alone: a key is
reported as it is iff it has no space, whichever of the three listers runs.
-/

namespace Rs5cmd

/-! ## The pages the listers read -/

/-- The pages that `list_objects_v1` is answered with, in at most `fuel` requests. -/
def listObjectsV1Pages (server : ListRequest → Except StorageError Page) (src : Url) :
    Nat → Option Str → List Page
  | 0, _ => []
  | fuel + 1, marker =>
    match server { bucket := src.bucket, keyPrefix := src.keyPrefix,
                   delimiter := nonEmpty src.delimiter, marker := marker } with
    | .error _ => []
    | .ok page =>
      page ::
        if page.isTruncated.getD false then
          match (page.nextMarker.map percentDecode).or (lastKey page) with
          | none => []
          | some m => listObjectsV1Pages server src fuel (some m)
        else []

/-- The pages that `list_object_versions` is answered with. -/
def listObjectVersionsPages (server : ListRequest → Except StorageError VersionsPage) (src : Url) :
    Nat → Option Str → Option Str → List VersionsPage
  | 0, _, _ => []
  | fuel + 1, keyMarker, versionMarker =>
    match server { bucket := src.bucket, keyPrefix := src.keyPrefix,
                   delimiter := nonEmpty src.delimiter, marker := keyMarker,
                   versionIdMarker := versionMarker } with
    | .error _ => []
    | .ok page =>
      page ::
        if page.isTruncated.getD false then
          let keyMarker := page.nextKeyMarker.map percentDecode
          let versionMarker := page.nextVersionIdMarker.map percentDecode
          if keyMarker.isNone && versionMarker.isNone then []
          else listObjectVersionsPages server src fuel keyMarker versionMarker
        else []

/-- The objects of a page are sent, unless an earlier page failed. -/
theorem mem_listV2Go_of_mem_page {src : Url} {found : Bool} {before : List Page} {page : Page}
    {after : List (Except StorageError Page)} {obj : Object} (h : obj ∈ pageObjects src page) :
    obj ∈ listV2Go src found (before.map .ok ++ .ok page :: after) := by
  induction before generalizing found with
  | nil => exact List.mem_append_left _ h
  | cons p before ih => exact List.mem_append_right _ ih

theorem mem_listObjectsV1Go_of_mem_page {server : ListRequest → Except StorageError Page}
    {src : Url} {fuel : Nat} {marker : Option Str} {found : Bool} {page : Page} {obj : Object}
    (hpage : page ∈ listObjectsV1Pages server src fuel marker) (h : obj ∈ pageObjects src page) :
    obj ∈ listObjectsV1Go server src fuel marker found := by
  induction fuel generalizing marker found with
  | zero => cases hpage
  | succ fuel ih =>
    unfold listObjectsV1Pages at hpage
    unfold listObjectsV1Go
    cases hfirst : server { bucket := src.bucket, keyPrefix := src.keyPrefix,
                            delimiter := nonEmpty src.delimiter, marker := marker } with
    | error e =>
      simp only [hfirst] at hpage
      cases hpage
    | ok first =>
      simp only [hfirst] at hpage
      rcases List.mem_cons.mp hpage with rfl | hpage
      · exact List.mem_append_left _ h
      · refine List.mem_append_right _ ?_
        split at hpage
        · rename_i htrunc
          rw [if_pos htrunc]
          -- The marker of the next request, as both loops compute it.
          cases hm : (first.nextMarker.map percentDecode).or (lastKey first) with
          | none =>
            simp only [hm] at hpage
            cases hpage
          | some m =>
            simp only [hm] at hpage
            exact ih hpage
        · cases hpage

theorem mem_listObjectVersionsGo_of_mem_page
    {server : ListRequest → Except StorageError VersionsPage} {src : Url} {fuel : Nat}
    {keyMarker versionMarker : Option Str} {found : Bool} {page : VersionsPage} {obj : Object}
    (hpage : page ∈ listObjectVersionsPages server src fuel keyMarker versionMarker)
    (h : obj ∈ versionsPageObjects src page) :
    obj ∈ listObjectVersionsGo server src fuel keyMarker versionMarker found := by
  induction fuel generalizing keyMarker versionMarker found with
  | zero => cases hpage
  | succ fuel ih =>
    unfold listObjectVersionsPages at hpage
    unfold listObjectVersionsGo
    cases hfirst : server { bucket := src.bucket, keyPrefix := src.keyPrefix,
                            delimiter := nonEmpty src.delimiter, marker := keyMarker,
                            versionIdMarker := versionMarker } with
    | error e =>
      simp only [hfirst] at hpage
      cases hpage
    | ok first =>
      simp only [hfirst] at hpage
      rcases List.mem_cons.mp hpage with rfl | hpage
      · exact List.mem_append_left _ h
      · refine List.mem_append_right _ ?_
        split at hpage
        · rename_i htrunc
          rw [if_pos htrunc]
          split at hpage
          · cases hpage
          · rename_i hmarkers
            rw [if_neg hmarkers]
            exact ih hpage
        · cases hpage

/-! ## One key -/

/-- The object was sent for an entry of key `key`, under that key. -/
def Object.IsAt (obj : Object) (key : Str) : Prop := obj.url.map Url.path = some key

/-- A version entry that `src` asks for, by naming no version or this one. -/
def Url.WantsVersion (src : Url) (v : VersionEntry) : Prop :=
  src.versionId = [] ∨ src.versionId = v.versionId.getD []

/-- The key survives the encoding of the service and the decoding of the client,
and each lister reports an entry for it, on any page it reads, under that key. -/
structure ReportedTrue (key : Str) : Prop where
  decoded : percentDecode (urlEncode key) = key
  listV2 : ∀ (src : Url) (before : List Page) (page : Page) (after : List (Except StorageError Page)),
    src.isMatch key = true → ∀ c ∈ page.contents, c.key = some (urlEncode key) →
      ∃ obj ∈ listV2 src (before.map .ok ++ .ok page :: after),
        contentObject src c = some obj ∧ obj.IsAt key
  listObjectsV1 : ∀ (server : ListRequest → Except StorageError Page) (src : Url) (fuel : Nat),
    src.isMatch key = true → ∀ page ∈ listObjectsV1Pages server src fuel none,
      ∀ c ∈ page.contents, c.key = some (urlEncode key) →
        ∃ obj ∈ listObjectsV1 server src fuel, contentObject src c = some obj ∧ obj.IsAt key
  versions : ∀ (server : ListRequest → Except StorageError VersionsPage) (src : Url) (fuel : Nat),
    src.isMatch key = true → ∀ page ∈ listObjectVersionsPages server src fuel none none,
      ∀ v ∈ page.versions, v.key = some (urlEncode key) → src.WantsVersion v →
        ∃ obj ∈ listObjectVersions server src fuel, versionObject src v = some obj ∧ obj.IsAt key
  deleteMarkers : ∀ (server : ListRequest → Except StorageError VersionsPage) (src : Url)
    (fuel : Nat), src.isMatch key = true → ∀ page ∈ listObjectVersionsPages server src fuel none none,
      ∀ v ∈ page.deleteMarkers, v.key = some (urlEncode key) → src.WantsVersion v →
        ∃ obj ∈ listObjectVersions server src fuel, deleteMarkerObject src v = some obj ∧ obj.IsAt key

section Entry

variable {src : Url} {key : Str} (hdec : percentDecode (urlEncode key) = key)
  (hmatch : src.isMatch key = true)

include hdec hmatch

theorem listed_urlEncode : ∃ u, src.listed (urlEncode key) = some u ∧ u.path = key := by
  refine ⟨_, Url.listed_eq_some.mpr ⟨?_, rfl⟩, hdec⟩
  rw [hdec]
  exact hmatch

theorem contentObject_isAt {c : Entry} (hc : c.key = some (urlEncode key)) :
    ∃ obj, contentObject src c = some obj ∧ obj.IsAt key := by
  obtain ⟨u, hu, hpath⟩ := listed_urlEncode hdec hmatch
  have hbind : c.key.bind src.listed = some u := by rw [hc]; exact hu
  refine ⟨_, by rw [contentObject, hbind]; rfl, ?_⟩
  show some u.path = some key
  rw [hpath]

theorem listedVersion_urlEncode {v : VersionEntry} (hv : v.key = some (urlEncode key))
    (hwant : src.WantsVersion v) : ∃ u, src.listedVersion v = some u ∧ u.path = key := by
  obtain ⟨u, hu, hpath⟩ := listed_urlEncode hdec hmatch
  have hbind : v.key.bind src.listed = some u := by rw [hv]; exact hu
  refine ⟨{ u with versionId := v.versionId.getD [] }, ?_, hpath⟩
  unfold Url.listedVersion
  rw [hbind, Option.bind_some]
  rcases hwant with hempty | hsame
  · simp [hempty]
  · simp [hsame]

end Entry

/-- **Key decoding, exactly.** A key comes out of a listing as it is in the bucket
iff it contains no space. -/
theorem list_keys_true_iff (key : Str) : ReportedTrue key ↔ ' ' ∉ key := by
  constructor
  · intro h
    have hdec := h.decoded
    rw [percentDecode_urlEncode] at hdec
    exact (map_plusForSpace_eq_iff key).mp hdec
  · intro hspace
    have hdec : percentDecode (urlEncode key) = key := by
      rw [percentDecode_urlEncode]
      exact (map_plusForSpace_eq_iff key).mpr hspace
    refine ⟨hdec, ?_, ?_, ?_, ?_⟩
    · intro src before page after hmatch c hc hkey
      obtain ⟨obj, hobj, hat⟩ := contentObject_isAt hdec hmatch hkey
      have hmem : obj ∈ pageObjects src page :=
        List.mem_append_right _ (List.mem_filterMap.mpr ⟨c, hc, hobj⟩)
      exact ⟨obj, mem_listV2Go_of_mem_page hmem, hobj, hat⟩
    · intro server src fuel hmatch page hpage c hc hkey
      obtain ⟨obj, hobj, hat⟩ := contentObject_isAt hdec hmatch hkey
      have hmem : obj ∈ pageObjects src page :=
        List.mem_append_right _ (List.mem_filterMap.mpr ⟨c, hc, hobj⟩)
      exact ⟨obj, mem_listObjectsV1Go_of_mem_page hpage hmem, hobj, hat⟩
    · intro server src fuel hmatch page hpage v hv hkey hwant
      obtain ⟨u, hu, hpath⟩ := listedVersion_urlEncode hdec hmatch hkey hwant
      obtain ⟨obj, hobj, hurl⟩ : ∃ obj, versionObject src v = some obj ∧ obj.url = some u :=
        ⟨_, by rw [versionObject, hu]; rfl, rfl⟩
      have hmem : obj ∈ versionsPageObjects src page :=
        List.mem_append_left _ (List.mem_append_right _ (List.mem_filterMap.mpr ⟨v, hv, hobj⟩))
      refine ⟨obj, mem_listObjectVersionsGo_of_mem_page hpage hmem, hobj, ?_⟩
      rw [Object.IsAt, hurl, Option.map_some, hpath]
    · intro server src fuel hmatch page hpage v hv hkey hwant
      obtain ⟨u, hu, hpath⟩ := listedVersion_urlEncode hdec hmatch hkey hwant
      obtain ⟨obj, hobj, hurl⟩ : ∃ obj, deleteMarkerObject src v = some obj ∧ obj.url = some u :=
        ⟨_, by rw [deleteMarkerObject, hu]; rfl, rfl⟩
      have hmem : obj ∈ versionsPageObjects src page :=
        List.mem_append_right _ (List.mem_filterMap.mpr ⟨v, hv, hobj⟩)
      refine ⟨obj, mem_listObjectVersionsGo_of_mem_page hpage hmem, hobj, ?_⟩
      rw [Object.IsAt, hurl, Option.map_some, hpath]

/-- The key `a b` is listed as `a+b`. -/
theorem list_key_space_lost :
    percentDecode (urlEncode "a b".toList) = "a+b".toList ∧ ¬ ReportedTrue "a b".toList := by
  have hdec : percentDecode (urlEncode "a b".toList) = "a+b".toList := by
    rw [percentDecode_urlEncode]
    decide
  refine ⟨hdec, ?_⟩
  intro h
  have := hdec.symm.trans h.decoded
  exact absurd this (by decide)

end Rs5cmd
