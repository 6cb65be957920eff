import Rs5cmd.Storage.Object
import Rs5cmd.Lib.Percent

/-!
# Remote listings (`storage/s3.rs`)

Keys are requested URL-encoded and percent-decoded as they arrive. A listing is
the stream of objects one of the three listers sends: common prefixes and
contents of each page in turn, an error in band that ends it, and
`NoObjectFound` when nothing matched.

What the server answers is a parameter: for ListObjectsV2 the pages the
paginator yields, for the two listers that paginate by hand the answer to each
request.
-/

namespace Rs5cmd

/-! ## Percent decoding -/

/-- `hex_val`. -/
def hexVal (b : UInt8) : Option UInt8 :=
  if 48 ≤ b && b ≤ 57 then some (b - 48)
  else if 97 ≤ b && b ≤ 102 then some (b - 97 + 10)
  else if 65 ≤ b && b ≤ 70 then some (b - 65 + 10)
  else none

/-- The byte loop of `percent_decode`: a `%` and two hex digits are one byte. -/
def percentDecodeBytes : List UInt8 → List UInt8
  | b :: h :: l :: rest =>
    if b = 37 then
      match hexVal h, hexVal l with
      | some h', some l' => ((h' <<< 4) ||| l') :: percentDecodeBytes rest
      | _, _ => b :: percentDecodeBytes (h :: l :: rest)
    else b :: percentDecodeBytes (h :: l :: rest)
  | b :: rest => b :: percentDecodeBytes rest
  | [] => []

/-- `percent_decode`. -/
def percentDecode (s : Str) : Str := Utf8.decodeLossy (percentDecodeBytes (Utf8.encode s))

theorem percentDecodeBytes_cons {b : UInt8} (hb : b ≠ 37) (rest : List UInt8) :
    percentDecodeBytes (b :: rest) = b :: percentDecodeBytes rest := by
  match rest with
  | [] => rfl
  | [_] => simp [percentDecodeBytes]
  | _ :: _ :: _ => simp [percentDecodeBytes, hb]

theorem hexVal_hexDigit (n : UInt8) (h : n < 16) : hexVal (Percent.hexDigit n) = some n := by
  have hall : ∀ n : Fin 16, hexVal (Percent.hexDigit (UInt8.ofNat n)) = some (UInt8.ofNat n) := by
    decide
  have hn : n.toNat < 16 := by simpa using UInt8.lt_iff_toNat_lt.mp h
  simpa using hall ⟨n.toNat, hn⟩

theorem nibbles_join (b : UInt8) : ((b >>> 4) <<< 4) ||| (b &&& 15) = b := by
  have hall : ∀ n : Fin 256, ((UInt8.ofNat n >>> 4) <<< 4) ||| (UInt8.ofNat n &&& 15)
      = UInt8.ofNat n := by
    decide +kernel
  have := hall ⟨b.toNat, b.toNat_lt⟩
  simpa using this

/-- One encoded byte is read back as that byte. -/
theorem percentDecodeBytes_encodeByte {keep : UInt8 → Bool} (hkeep : keep 37 = false)
    (b : UInt8) (rest : List UInt8) :
    percentDecodeBytes (Percent.encodeByte keep b ++ rest) = b :: percentDecodeBytes rest := by
  unfold Percent.encodeByte
  split
  · rename_i hk
    have hb : b ≠ 37 := by
      rintro rfl
      rw [hkeep] at hk
      exact Bool.false_ne_true hk
    exact percentDecodeBytes_cons hb rest
  · obtain ⟨hhi, hlo⟩ := Percent.nibbles_lt b
    simp only [List.cons_append, List.nil_append, percentDecodeBytes, if_true,
      hexVal_hexDigit _ hhi, hexVal_hexDigit _ hlo, nibbles_join]

/-- **Percent decoding inverts percent encoding**, whichever ASCII bytes other
than `%` the encoder keeps. -/
theorem percentDecode_encode {keep : UInt8 → Bool} (hascii : ∀ b, keep b = true → b < 128)
    (hkeep : keep 37 = false) (k : Str) : percentDecode (Percent.encode keep k) = k := by
  have hbytes : ∀ bs : List UInt8,
      percentDecodeBytes (bs.flatMap (Percent.encodeByte keep)) = bs := by
    intro bs
    induction bs with
    | nil => rfl
    | cons b bs ih =>
      rw [List.flatMap_cons, percentDecodeBytes_encodeByte hkeep, ih]
  rw [percentDecode, Percent.utf8_encode_encode hascii, hbytes, Utf8.decodeLossy_encode]

/-- A text in which every byte is percent-encoded. -/
def percentEncodeAll (k : Str) : Str := Percent.encode (fun _ => false) k

@[simp] theorem percentDecode_encodeAll (k : Str) : percentDecode (percentEncodeAll k) = k :=
  percentDecode_encode (by simp) rfl k

/-! ### Texts without escapes -/

/-- Some `%` is followed by two hex digits. -/
def hasEscape : List UInt8 → Bool
  | b :: h :: l :: rest =>
    (b == 37 && (hexVal h).isSome && (hexVal l).isSome) || hasEscape (h :: l :: rest)
  | _ => false

theorem length_percentDecodeBytes_le (bs : List UInt8) :
    (percentDecodeBytes bs).length ≤ bs.length := by
  fun_induction percentDecodeBytes bs with
  | case1 h l rest h' l' hl hh ih =>
    simp only [List.length_cons]
    omega
  | case2 h l rest hnone ih =>
    simp only [List.length_cons] at ih ⊢
    omega
  | case3 b h l rest hb ih =>
    simp only [List.length_cons] at ih ⊢
    omega
  | case4 b rest hshort ih =>
    simp only [List.length_cons]
    omega
  | case5 => exact Nat.le_refl 0

theorem percentDecodeBytes_of_hasEscape_eq_false {bs : List UInt8} (h : hasEscape bs = false) :
    percentDecodeBytes bs = bs := by
  fun_induction percentDecodeBytes bs with
  | case1 hd ld rest h' l' hl hh ih => simp [hasEscape, hh, hl] at h
  | case2 hd ld rest hnone ih =>
    simp only [hasEscape, Bool.or_eq_false_iff] at h
    rw [ih h.2]
  | case3 b hd ld rest hb ih =>
    simp only [hasEscape, Bool.or_eq_false_iff] at h
    rw [ih h.2]
  | case4 b rest hshort ih =>
    -- fewer than three bytes are left
    match rest, hshort with
    | [], _ => rfl
    | [c], _ => rfl
    | c :: d :: rest, hshort => exact absurd rfl (hshort c d rest)
  | case5 => rfl

/-- An escape is read as one byte, so the text gets shorter. -/
theorem length_percentDecodeBytes_lt {bs : List UInt8} (h : hasEscape bs = true) :
    (percentDecodeBytes bs).length < bs.length := by
  fun_induction percentDecodeBytes bs with
  | case1 hd ld rest h' l' hl hh ih =>
    have := length_percentDecodeBytes_le rest
    simp only [List.length_cons]
    omega
  | case2 hd ld rest hnone ih =>
    have hrest : hasEscape (hd :: ld :: rest) = true := by
      rcases Bool.or_eq_true _ _ |>.mp h with h | h
      · simp only [Bool.and_eq_true] at h
        obtain ⟨⟨-, hh⟩, hl⟩ := h
        obtain ⟨x, hx⟩ := Option.isSome_iff_exists.mp hh
        obtain ⟨y, hy⟩ := Option.isSome_iff_exists.mp hl
        exact absurd hy (hnone x y hx)
      · exact h
    have := ih hrest
    simp only [List.length_cons] at this ⊢
    omega
  | case3 b hd ld rest hb ih =>
    have hrest : hasEscape (hd :: ld :: rest) = true := by
      rcases Bool.or_eq_true _ _ |>.mp h with h | h
      · simp only [Bool.and_eq_true, beq_iff_eq] at h
        exact absurd h.1.1 hb
      · exact h
    have := ih hrest
    simp only [List.length_cons] at this ⊢
    omega
  | case4 b rest hshort ih =>
    match rest, hshort with
    | [], _ => cases h
    | [c], _ => cases h
    | c :: d :: rest, hshort => exact absurd rfl (hshort c d rest)
  | case5 => cases h

/-! ## Pages -/

/-- An object of a ListObjects page. Times are seconds since the epoch. -/
structure Entry where
  key : Option Str
  etag : Option Str := none
  lastModified : Option Int := none
  size : Option Int := none
  storageClass : Option Str := none
  deriving DecidableEq, Repr

/-- A page of either ListObjects API, as far as the code reads it. -/
structure Page where
  commonPrefixes : List (Option Str) := []
  contents : List Entry := []
  isTruncated : Option Bool := none
  nextMarker : Option Str := none
  deriving DecidableEq, Repr

/-- An object version or a delete marker of a ListObjectVersions page. -/
structure VersionEntry extends Entry where
  versionId : Option Str := none
  deriving DecidableEq, Repr

structure VersionsPage where
  commonPrefixes : List (Option Str) := []
  versions : List VersionEntry := []
  deleteMarkers : List VersionEntry := []
  isTruncated : Option Bool := none
  nextKeyMarker : Option Str := none
  nextVersionIdMarker : Option Str := none
  deriving DecidableEq, Repr

/-- What a listing request asks for. -/
structure ListRequest where
  bucket : Str
  keyPrefix : Str
  delimiter : Option Str
  startAfter : Option Str := none
  marker : Option Str := none
  versionIdMarker : Option Str := none
  deriving DecidableEq, Repr

/-! ## Listed objects -/

/-- `t.secs().max(0)` as a time. -/
def fromSecs (secs : Int) : Int := max secs 0 * 1000000000

/-- `s.trim_matches('"')`. -/
def trimQuotes (s : Str) : Str := Str.trimEndMatches '"' (s.dropWhile (· == '"'))

/-- The URL of a listed key: `src` with the relative path `matches` derived and
the decoded key as its path. -/
def Url.listed (src : Url) (raw : Str) : Option Url :=
  let key := percentDecode raw
  (src.matches? key).map fun u => { u with path := key }

def commonPrefixObject (src : Url) (p : Option Str) : Option Object :=
  (p.bind src.listed).map fun u => { url := some u, typ := .dir }

/-- The object of a contents entry: a file, also when its key ends in `/`. -/
def contentObject (src : Url) (c : Entry) : Option Object :=
  (c.key.bind src.listed).map fun u =>
    { url := some u
      etag := trimQuotes (c.etag.getD [])
      modTime := c.lastModified.map fromSecs
      typ := .file
      size := c.size.getD 0
      storageClass := c.storageClass.getD [] }

def pageObjects (src : Url) (page : Page) : List Object :=
  page.commonPrefixes.filterMap (commonPrefixObject src) ++
    page.contents.filterMap (contentObject src)

/-- What a lister sends after its last page. -/
def listEnd (src : Url) (objectFound : Bool) : List Object :=
  if !objectFound && !src.isBucket then [Object.withError .noObjectFound] else []

/-! ## ListObjectsV2 -/

def listV2Go (src : Url) (objectFound : Bool) : List (Except StorageError Page) → List Object
  | [] => listEnd src objectFound
  | .error e :: _ => [Object.withError e]
  | .ok page :: rest =>
    let objs := pageObjects src page
    objs ++ listV2Go src (objectFound || !objs.isEmpty) rest

/-- `list_v2`, given the pages of the paginator. -/
def listV2 (src : Url) (pages : List (Except StorageError Page)) : List Object :=
  listV2Go src false pages

/-- `set_delimiter`, `set_start_after`: an empty option is not sent. -/
def nonEmpty (s : Str) : Option Str := if s = [] then none else some s

def listV2Request (src : Url) : ListRequest where
  bucket := src.bucket
  keyPrefix := src.keyPrefix
  delimiter := nonEmpty src.delimiter
  startAfter := nonEmpty src.startAfter

/-! ## ListObjects -/

/-- The last decoded key of a page, whether or not it matched. -/
def lastKey (page : Page) : Option Str := (page.contents.filterMap Entry.key).getLast?.map percentDecode

/-- The loop of `list_objects_v1`, for at most `fuel` requests. -/
def listObjectsV1Go (server : ListRequest → Except StorageError Page) (src : Url) :
    Nat → Option Str → Bool → List Object
  | 0, _, _ => []
  | fuel + 1, marker, objectFound =>
    match server { bucket := src.bucket, keyPrefix := src.keyPrefix,
                   delimiter := nonEmpty src.delimiter, marker := marker } with
    | .error e => [Object.withError e]
    | .ok page =>
      let objs := pageObjects src page
      let objectFound := objectFound || !objs.isEmpty
      objs ++
        if page.isTruncated.getD false then
          match (page.nextMarker.map percentDecode).or (lastKey page) with
          | none => listEnd src objectFound
          | some m => listObjectsV1Go server src fuel (some m) objectFound
        else listEnd src objectFound

def listObjectsV1 (server : ListRequest → Except StorageError Page) (src : Url) (fuel : Nat) :
    List Object :=
  listObjectsV1Go server src fuel none false

/-! ## ListObjectVersions -/

/-- The URL of a listed version, unless `src` names another version. -/
def Url.listedVersion (src : Url) (v : VersionEntry) : Option Url :=
  (v.key.bind src.listed).bind fun u =>
    let vid := v.versionId.getD []
    if src.versionId ≠ [] && src.versionId ≠ vid then none else some { u with versionId := vid }

def versionObject (src : Url) (v : VersionEntry) : Option Object :=
  (src.listedVersion v).map fun u =>
    { url := some u
      etag := trimQuotes (v.etag.getD [])
      modTime := v.lastModified.map fromSecs
      typ := .file
      size := v.size.getD 0
      storageClass := v.storageClass.getD [] }

def deleteMarkerObject (src : Url) (d : VersionEntry) : Option Object :=
  (src.listedVersion d).map fun u =>
    { url := some u, modTime := d.lastModified.map fromSecs, typ := .file, isDeleteMarker := true }

def versionsPageObjects (src : Url) (page : VersionsPage) : List Object :=
  page.commonPrefixes.filterMap (commonPrefixObject src) ++
    page.versions.filterMap (versionObject src) ++
    page.deleteMarkers.filterMap (deleteMarkerObject src)

/-- The loop of `list_object_versions`, for at most `fuel` requests. -/
def listObjectVersionsGo (server : ListRequest → Except StorageError VersionsPage) (src : Url) :
    Nat → Option Str → Option Str → Bool → List Object
  | 0, _, _, _ => []
  | fuel + 1, keyMarker, versionMarker, objectFound =>
    match server { bucket := src.bucket, keyPrefix := src.keyPrefix,
                   delimiter := nonEmpty src.delimiter, marker := keyMarker,
                   versionIdMarker := versionMarker } with
    | .error e => [Object.withError e]
    | .ok page =>
      let objs := versionsPageObjects src page
      let objectFound := objectFound || !objs.isEmpty
      objs ++
        if page.isTruncated.getD false then
          let keyMarker := page.nextKeyMarker.map percentDecode
          let versionMarker := page.nextVersionIdMarker.map percentDecode
          if keyMarker.isNone && versionMarker.isNone then listEnd src objectFound
          else listObjectVersionsGo server src fuel keyMarker versionMarker objectFound
        else listEnd src objectFound

def listObjectVersions (server : ListRequest → Except StorageError VersionsPage) (src : Url)
    (fuel : Nat) : List Object :=
  listObjectVersionsGo server src fuel none none false

/-! ## The client -/

/-- The answer to a HEAD request. -/
structure HeadOutput where
  etag : Option Str := none
  lastModified : Option Int := none
  contentLength : Option Int := none

/-- An S3 client: the configuration the listing code reads and what the server
answers. HEAD answers `none` for an object that is not there; the hand-written
pagination loops are run for `fuel` requests. -/
structure S3 where
  useListObjectsV1 : Bool := false
  listPages : ListRequest → List (Except StorageError Page)
  listV1 : ListRequest → Except StorageError Page
  listVersions : ListRequest → Except StorageError VersionsPage
  headObject : Str → Str → Str → Except StorageError (Option HeadOutput)
  fuel : Nat

/-- `S3::list`. -/
def S3.list (s3 : S3) (src : Url) : List Object :=
  if src.isVersioned then listObjectVersions s3.listVersions src s3.fuel
  else if s3.useListObjectsV1 then listObjectsV1 s3.listV1 src s3.fuel
  else listV2 src (s3.listPages (listV2Request src))

/-- `S3::stat`. -/
def S3.stat (s3 : S3) (src : Url) : Except StorageError Object :=
  match s3.headObject src.bucket src.path src.versionId with
  | .ok (some out) => .ok
      { url := some src
        etag := trimQuotes (out.etag.getD [])
        modTime := out.lastModified.map fromSecs
        size := out.contentLength.getD 0
        typ := .file }
  | .ok none => .error (.objectNotFound src.absolute)
  | .error e => .error e

/-! ## What a listing contains -/

/-- Where an object of a listing comes from. -/
inductive ListOrigin (src : Url) : Object → Prop where
  | error (e : StorageError) : ListOrigin src (Object.withError e)
  | commonPrefix {p : Option Str} {obj : Object} (h : commonPrefixObject src p = some obj) :
      ListOrigin src obj
  | content {c : Entry} {obj : Object} (h : contentObject src c = some obj) : ListOrigin src obj
  | version {v : VersionEntry} {obj : Object} (h : versionObject src v = some obj) :
      ListOrigin src obj
  | deleteMarker {d : VersionEntry} {obj : Object} (h : deleteMarkerObject src d = some obj) :
      ListOrigin src obj

section Origin

variable {src : Url} {obj : Object}

theorem listOrigin_pageObjects {page : Page} (h : obj ∈ pageObjects src page) :
    ListOrigin src obj := by
  rcases List.mem_append.mp h with h | h
  · obtain ⟨p, -, hp⟩ := List.mem_filterMap.mp h
    exact .commonPrefix hp
  · obtain ⟨c, -, hc⟩ := List.mem_filterMap.mp h
    exact .content hc

theorem listOrigin_listEnd {found : Bool} (h : obj ∈ listEnd src found) : ListOrigin src obj := by
  unfold listEnd at h
  split at h
  · rw [List.mem_singleton.mp h]
    exact .error _
  · simp at h

theorem listOrigin_listV2Go {found : Bool} {pages : List (Except StorageError Page)}
    (h : obj ∈ listV2Go src found pages) : ListOrigin src obj := by
  induction pages generalizing found with
  | nil => exact listOrigin_listEnd h
  | cons page rest ih =>
    cases page with
    | error e =>
      rw [List.mem_singleton.mp h]
      exact .error e
    | ok page =>
      rcases List.mem_append.mp h with h | h
      · exact listOrigin_pageObjects h
      · exact ih h

theorem listOrigin_listObjectsV1Go {server : ListRequest → Except StorageError Page} {fuel : Nat}
    {marker : Option Str} {found : Bool} (h : obj ∈ listObjectsV1Go server src fuel marker found) :
    ListOrigin src obj := by
  induction fuel generalizing marker found with
  | zero => simp [listObjectsV1Go] at h
  | succ fuel ih =>
    unfold listObjectsV1Go at h
    split at h
    · rw [List.mem_singleton.mp h]
      exact .error _
    · rcases List.mem_append.mp h with h | h
      · exact listOrigin_pageObjects h
      · split at h
        · split at h
          · exact listOrigin_listEnd h
          · exact ih h
        · exact listOrigin_listEnd h

theorem listOrigin_versionsPage {page : VersionsPage} (h : obj ∈ versionsPageObjects src page) :
    ListOrigin src obj := by
  rcases List.mem_append.mp h with h | h
  · rcases List.mem_append.mp h with h | h
    · obtain ⟨p, -, hp⟩ := List.mem_filterMap.mp h
      exact .commonPrefix hp
    · obtain ⟨v, -, hv⟩ := List.mem_filterMap.mp h
      exact .version hv
  · obtain ⟨d, -, hd⟩ := List.mem_filterMap.mp h
    exact .deleteMarker hd

theorem listOrigin_listObjectVersionsGo {server : ListRequest → Except StorageError VersionsPage}
    {fuel : Nat} {keyMarker versionMarker : Option Str} {found : Bool}
    (h : obj ∈ listObjectVersionsGo server src fuel keyMarker versionMarker found) :
    ListOrigin src obj := by
  induction fuel generalizing keyMarker versionMarker found with
  | zero => simp [listObjectVersionsGo] at h
  | succ fuel ih =>
    unfold listObjectVersionsGo at h
    split at h
    · rw [List.mem_singleton.mp h]
      exact .error _
    · rcases List.mem_append.mp h with h | h
      · exact listOrigin_versionsPage h
      · split at h
        · dsimp only at h
          split at h
          · exact listOrigin_listEnd h
          · exact ih h
        · exact listOrigin_listEnd h

/-- Whichever lister runs and whatever the server answers. -/
theorem S3.listOrigin {s3 : S3} (h : obj ∈ s3.list src) : ListOrigin src obj := by
  unfold S3.list at h
  split at h
  · exact listOrigin_listObjectVersionsGo h
  · split at h
    · exact listOrigin_listObjectsV1Go h
    · exact listOrigin_listV2Go h

/-- What has a URL is no error but a directory or a file. -/
theorem ListOrigin.of_url (h : ListOrigin src obj) {u : Url} (hu : obj.url = some u) :
    obj.err = none ∧ (obj.typ = .dir ∨ obj.typ = .file) := by
  cases h with
  | error e => cases hu
  | commonPrefix h =>
    obtain ⟨v, -, rfl⟩ := Option.map_eq_some_iff.mp h
    exact ⟨rfl, .inl rfl⟩
  | content h =>
    obtain ⟨v, -, rfl⟩ := Option.map_eq_some_iff.mp h
    exact ⟨rfl, .inr rfl⟩
  | version h =>
    obtain ⟨v, -, rfl⟩ := Option.map_eq_some_iff.mp h
    exact ⟨rfl, .inr rfl⟩
  | deleteMarker h =>
    obtain ⟨v, -, rfl⟩ := Option.map_eq_some_iff.mp h
    exact ⟨rfl, .inr rfl⟩

end Origin

/-- An object of a listing: an in-band error, or an entry for a key that
matches, whose URL is the one `listed` makes of it up to the version id. -/
def ListedFrom (src : Url) (obj : Object) : Prop :=
  obj.err.isSome = true ∨
    (obj.err = none ∧ ∃ raw u, src.listed raw = some u ∧
      (obj.url = some u ∨ ∃ vid, obj.url = some { u with versionId := vid }))

theorem listedVersion_eq_some {src : Url} {v : VersionEntry} {u : Url}
    (h : src.listedVersion v = some u) :
    ∃ raw u', src.listed raw = some u' ∧ ∃ vid, u = { u' with versionId := vid } := by
  obtain ⟨u', hu', h⟩ := Option.bind_eq_some_iff.mp h
  obtain ⟨raw, -, hraw⟩ := Option.bind_eq_some_iff.mp hu'
  refine ⟨raw, u', hraw, v.versionId.getD [], ?_⟩
  dsimp only at h
  split at h
  · cases h
  · exact (Option.some.inj h).symm

/-- **Every object of a remote listing** is an in-band error or stands for a key
that matches, whichever lister runs and whatever the server answers. -/
theorem S3.listedFrom {s3 : S3} {src : Url} {obj : Object} (h : obj ∈ s3.list src) :
    ListedFrom src obj := by
  cases S3.listOrigin h with
  | error e => exact Or.inl rfl
  | commonPrefix hp =>
    obtain ⟨u, hu, rfl⟩ := Option.map_eq_some_iff.mp hp
    obtain ⟨raw, -, hraw⟩ := Option.bind_eq_some_iff.mp hu
    exact Or.inr ⟨rfl, raw, u, hraw, Or.inl rfl⟩
  | content hc =>
    obtain ⟨u, hu, rfl⟩ := Option.map_eq_some_iff.mp hc
    obtain ⟨raw, -, hraw⟩ := Option.bind_eq_some_iff.mp hu
    exact Or.inr ⟨rfl, raw, u, hraw, Or.inl rfl⟩
  | version hv =>
    obtain ⟨u, hu, rfl⟩ := Option.map_eq_some_iff.mp hv
    obtain ⟨raw, u', hraw, vid, rfl⟩ := listedVersion_eq_some hu
    exact Or.inr ⟨rfl, raw, u', hraw, Or.inr ⟨vid, rfl⟩⟩
  | deleteMarker hd =>
    obtain ⟨u, hu, rfl⟩ := Option.map_eq_some_iff.mp hd
    obtain ⟨raw, u', hraw, vid, rfl⟩ := listedVersion_eq_some hu
    exact Or.inr ⟨rfl, raw, u', hraw, Or.inr ⟨vid, rfl⟩⟩

/-- The URL of a listed key. -/
theorem Url.listed_eq_some {src : Url} {raw : Str} {u : Url} :
    src.listed raw = some u ↔
      src.isMatch (percentDecode raw) = true ∧
        u = { src with relativePath := src.relativeOf (percentDecode raw),
                       path := percentDecode raw } := by
  unfold Url.listed Url.matches?
  cases hm : src.isMatch (percentDecode raw) with
  | false => simp [hm]
  | true => simp [hm, eq_comm]

end Rs5cmd
