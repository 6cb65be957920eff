import Rs5cmd.Storage.S3.List

/-!
# A server that lists a bucket

What the listing code relies on from the service: the pages it is answered with
hold, over all of them, the objects of the bucket whose keys start with the
requested prefix and have no delimiter after it. Where it cuts pages and which
common prefixes it reports is left open, and so is how it encodes keys, except in
`urlEncode`.
-/

namespace Rs5cmd

/-! ## Encoded keys -/

/-- The bytes of a key that are sent as they are: the unreserved ones and `/`. -/
def isKeySafe (b : UInt8) : Bool :=
  (65 ≤ b && b ≤ 90) || (97 ≤ b && b ≤ 122) || (48 ≤ b && b ≤ 57) ||
    b == 45 || b == 95 || b == 46 || b == 126 || b == 47

/-- One byte under `encoding-type=url`: a space is sent as `+`. -/
def urlEncodeByte (b : UInt8) : List UInt8 :=
  if b = 32 then [43] else Percent.encodeByte isKeySafe b

/-- A key as AWS and MinIO send it under `encoding-type=url`. -/
def urlEncode (key : Str) : Str := ((Utf8.encode key).flatMap urlEncodeByte).map Percent.ascii

/-- What is left of a character after the round trip: spaces arrive as `+`. -/
def plusForSpace (c : Char) : Char := if c = ' ' then '+' else c

theorem isKeySafe_lt (b : UInt8) (h : isKeySafe b = true) : b < 128 := by
  have hall : ∀ n : Fin 256, isKeySafe (UInt8.ofNat n) = true → UInt8.ofNat n < 128 := by
    decide +kernel
  have := hall ⟨b.toNat, b.toNat_lt⟩
  simpa [h] using this

theorem percentDecodeBytes_urlEncodeByte (b : UInt8) (rest : List UInt8) :
    percentDecodeBytes (urlEncodeByte b ++ rest) =
      (if b = 32 then 43 else b) :: percentDecodeBytes rest := by
  unfold urlEncodeByte
  split
  · exact percentDecodeBytes_cons (by decide) rest
  · exact percentDecodeBytes_encodeByte (by decide) b rest

theorem percentDecodeBytes_urlEncode (bs : List UInt8) :
    percentDecodeBytes (bs.flatMap urlEncodeByte) = bs.map fun b => if b = 32 then 43 else b := by
  induction bs with
  | nil => rfl
  | cons b bs ih => rw [List.flatMap_cons, percentDecodeBytes_urlEncodeByte, ih, List.map_cons]

theorem urlEncodeByte_lt (b x : UInt8) (hx : x ∈ urlEncodeByte b) : x < 128 := by
  unfold urlEncodeByte at hx
  split at hx
  · rw [List.mem_singleton.mp hx]
    decide
  · exact Percent.encodeByte_lt isKeySafe_lt b x hx

/-- Replacing the byte of the space replaces the character: no other one has it
among its bytes. -/
theorem map_utf8EncodeChar (c : Char) :
    ((String.utf8EncodeChar c).map fun b => if b = 32 then (43 : UInt8) else b) =
      String.utf8EncodeChar (plusForSpace c) := by
  unfold plusForSpace
  split
  · rename_i hc
    subst hc
    decide
  · rename_i hc
    have hne : ∀ b ∈ String.utf8EncodeChar c, b ≠ 32 := by
      intro b hb hb32
      subst hb32
      have hnat := (Utf8.eq_of_mem_utf8EncodeChar hb (by decide)).2
      apply hc
      have : c = Char.ofNat 32 := by
        rw [← Char.ofNat_toNat c, hnat]
        rfl
      exact this
    calc (String.utf8EncodeChar c).map (fun b => if b = 32 then (43 : UInt8) else b)
        = (String.utf8EncodeChar c).map id :=
          List.map_congr_left fun b hb => if_neg (hne b hb)
      _ = String.utf8EncodeChar c := List.map_id _

theorem map_utf8_encode (key : Str) :
    ((Utf8.encode key).map fun b => if b = 32 then (43 : UInt8) else b) =
      Utf8.encode (key.map plusForSpace) := by
  induction key with
  | nil => rfl
  | cons c key ih =>
    rw [List.map_cons, Utf8.encode_cons, Utf8.encode_cons, List.map_append, ih, map_utf8EncodeChar]

/-- **What a listing makes of a key**: the key itself, with `+` for each space. -/
theorem percentDecode_urlEncode (key : Str) :
    percentDecode (urlEncode key) = key.map plusForSpace := by
  have hascii : ∀ x ∈ (Utf8.encode key).flatMap urlEncodeByte, x < 128 := by
    intro x hx
    obtain ⟨b, -, hx⟩ := List.mem_flatMap.mp hx
    exact urlEncodeByte_lt b x hx
  rw [percentDecode, urlEncode, Percent.utf8_encode_map_ascii _ hascii,
    percentDecodeBytes_urlEncode, map_utf8_encode, Utf8.decodeLossy_encode]

theorem map_plusForSpace_eq_iff (key : Str) : key.map plusForSpace = key ↔ ' ' ∉ key := by
  induction key with
  | nil => simp
  | cons c key ih =>
    rw [List.map_cons, List.cons.injEq, ih, List.mem_cons, not_or]
    refine and_congr_left' ?_
    unfold plusForSpace
    split
    · rename_i hc
      subst hc
      decide
    · rename_i hc
      simp [Ne.symm hc]

/-- A key as a listing shows it. -/
def shownKey (key : Str) : Str := key.map plusForSpace

theorem shownKey_append (a b : Str) : shownKey (a ++ b) = shownKey a ++ shownKey b := List.map_append

theorem shownKey_eq_self {key : Str} : shownKey key = key ↔ ' ' ∉ key := map_plusForSpace_eq_iff key

theorem space_not_mem_shownKey (key : Str) : ' ' ∉ shownKey key := by
  intro hmem
  obtain ⟨c, -, hc⟩ := List.mem_map.mp hmem
  unfold plusForSpace at hc
  split at hc
  · exact absurd hc (by decide)
  · rename_i hne
    exact hne hc

/-! ## Pages of a bucket -/

/-- An object of a bucket, as a listing describes it. -/
structure StoredObject where
  key : Str
  etag : Str := []
  lastModified : Int := 0
  size : Int := 0
  storageClass : Str := []
  deriving DecidableEq, Repr

/-- The listing entry of an object, with its key encoded. -/
def StoredObject.entry (enc : Str → Str) (o : StoredObject) : Entry where
  key := some (enc o.key)
  etag := some o.etag
  lastModified := some o.lastModified
  size := some o.size
  storageClass := some o.storageClass

/-- The keys a request asks the contents of: those under the prefix with no
delimiter after it. -/
def ListRequest.Covers (req : ListRequest) (key : Str) : Prop :=
  req.keyPrefix <+: key ∧ ∀ d, req.delimiter = some d → ¬ d <:+: key.drop req.keyPrefix.length

/-- The pages hold the entries of exactly the objects asked for. -/
def Enumerates (enc : Str → Str) (objs : List StoredObject) (req : ListRequest)
    (pages : List Page) : Prop :=
  ∀ c, (∃ page ∈ pages, c ∈ page.contents) ↔
    ∃ o ∈ objs, req.Covers o.key ∧ c = o.entry enc

/-- The requests of the marker loop, followed to the last page. -/
inductive V1Pages (server : ListRequest → Except StorageError Page) (src : Url) :
    Option Str → List Page → Prop where
  | last {marker page}
      (hpage : server { bucket := src.bucket, keyPrefix := src.keyPrefix,
                        delimiter := nonEmpty src.delimiter, marker := marker } = .ok page)
      (hlast : page.isTruncated.getD false = false) : V1Pages server src marker [page]
  | next {marker page m rest}
      (hpage : server { bucket := src.bucket, keyPrefix := src.keyPrefix,
                        delimiter := nonEmpty src.delimiter, marker := marker } = .ok page)
      (htrunc : page.isTruncated.getD false = true)
      (hmarker : (page.nextMarker.map percentDecode).or (lastKey page) = some m)
      (hrest : V1Pages server src (some m) rest) : V1Pages server src marker (page :: rest)

/-- The client's server holds the given objects and answers listings of `src`
completely, through either API. -/
def Serves (enc : Str → Str) (objs : List StoredObject) (s3 : S3) (src : Url) : Prop :=
  ∃ pages, Enumerates enc objs (listV2Request src) pages ∧
    if s3.useListObjectsV1 then
      V1Pages s3.listV1 src none pages ∧ pages.length ≤ s3.fuel
    else s3.listPages (listV2Request src) = pages.map .ok

/-- What the marker loop is answered, up to the first error or the last page. -/
inductive V1Answers (server : ListRequest → Except StorageError Page) (src : Url) :
    Option Str → List (Except StorageError Page) → Prop where
  | failed {marker e}
      (hpage : server { bucket := src.bucket, keyPrefix := src.keyPrefix,
                        delimiter := nonEmpty src.delimiter, marker := marker } = .error e) :
      V1Answers server src marker [.error e]
  | last {marker page}
      (hpage : server { bucket := src.bucket, keyPrefix := src.keyPrefix,
                        delimiter := nonEmpty src.delimiter, marker := marker } = .ok page)
      (hlast : page.isTruncated.getD false = false) : V1Answers server src marker [.ok page]
  | next {marker page m rest}
      (hpage : server { bucket := src.bucket, keyPrefix := src.keyPrefix,
                        delimiter := nonEmpty src.delimiter, marker := marker } = .ok page)
      (htrunc : page.isTruncated.getD false = true)
      (hmarker : (page.nextMarker.map percentDecode).or (lastKey page) = some m)
      (hrest : V1Answers server src (some m) rest) : V1Answers server src marker (.ok page :: rest)

/-- The answers to a listing of `src`, through either API. -/
def S3.Answers (s3 : S3) (src : Url) (pages : List (Except StorageError Page)) : Prop :=
  if s3.useListObjectsV1 then V1Answers s3.listV1 src none pages ∧ pages.length ≤ s3.fuel
  else s3.listPages (listV2Request src) = pages

/-- The marker loop and the paginator send the same objects for the same answers. -/
theorem listObjectsV1Go_of_answers {server : ListRequest → Except StorageError Page} {src : Url}
    {marker : Option Str} {pages : List (Except StorageError Page)}
    (h : V1Answers server src marker pages) {fuel : Nat} (hfuel : pages.length ≤ fuel)
    (found : Bool) : listObjectsV1Go server src fuel marker found = listV2Go src found pages := by
  induction h generalizing fuel found with
  | failed hpage =>
    obtain ⟨n, rfl⟩ : ∃ n, fuel = n + 1 := ⟨fuel - 1, by simp at hfuel; omega⟩
    simp [listObjectsV1Go, hpage, listV2Go]
  | last hpage hlast =>
    obtain ⟨n, rfl⟩ : ∃ n, fuel = n + 1 := ⟨fuel - 1, by simp at hfuel; omega⟩
    simp [listObjectsV1Go, hpage, hlast, listV2Go]
  | next hpage htrunc hmarker hrest ih =>
    obtain ⟨n, rfl⟩ : ∃ n, fuel = n + 1 := ⟨fuel - 1, by simp at hfuel; omega⟩
    have hn : ∀ found, listObjectsV1Go server src n (some _) found = _ :=
      ih (by simpa using hfuel)
    simp [listObjectsV1Go, hpage, htrunc, hmarker, listV2Go, hn]

theorem S3.list_of_answers {s3 : S3} {src : Url} {pages : List (Except StorageError Page)}
    (h : s3.Answers src pages) (hv : src.isVersioned = false) : s3.list src = listV2 src pages := by
  unfold S3.list
  unfold S3.Answers at h
  rw [hv, if_neg (by simp)]
  split
  · rename_i hv1
    rw [if_pos hv1] at h
    exact listObjectsV1Go_of_answers h.1 h.2 false
  · rename_i hv1
    rw [if_neg hv1] at h
    rw [h]

theorem V1Pages.answers {server : ListRequest → Except StorageError Page} {src : Url}
    {marker : Option Str} {pages : List Page} (h : V1Pages server src marker pages) :
    V1Answers server src marker (pages.map .ok) := by
  induction h with
  | last hpage hlast => exact .last hpage hlast
  | next hpage htrunc hmarker hrest ih => exact .next hpage htrunc hmarker ih

theorem mem_listV2Go_ok {src : Url} {found : Bool} {pages : List Page} {obj : Object}
    (herr : obj.err = none) :
    obj ∈ listV2Go src found (pages.map .ok) ↔ ∃ page ∈ pages, obj ∈ pageObjects src page := by
  induction pages generalizing found with
  | nil =>
    simp only [List.map_nil, List.not_mem_nil, false_and, exists_false, iff_false]
    intro h
    simp only [listV2Go, listEnd] at h
    split at h
    · rw [List.mem_singleton.mp h] at herr
      cases herr
    · simp at h
  | cons page rest ih =>
    simp [listV2Go, ih]

/-- A complete listing is that of its pages, through either API. -/
theorem list_of_serves {enc : Str → Str} {objs : List StoredObject} {s3 : S3} {src : Url}
    (h : Serves enc objs s3 src) (hv : src.isVersioned = false) :
    ∃ pages, Enumerates enc objs (listV2Request src) pages ∧
      s3.list src = listV2Go src false (pages.map .ok) := by
  obtain ⟨pages, henum, hpages⟩ := h
  have hanswers : s3.Answers src (pages.map .ok) := by
    unfold S3.Answers
    split
    · rename_i hv1
      rw [if_pos hv1] at hpages
      exact ⟨hpages.1.answers, by simpa using hpages.2⟩
    · rename_i hv1
      rw [if_neg hv1] at hpages
      exact hpages
  exact ⟨pages, henum, S3.list_of_answers hanswers hv⟩

theorem pageObjects_err {src : Url} {page : Page} {obj : Object} (h : obj ∈ pageObjects src page) :
    obj.err = none := by
  rcases List.mem_append.mp h with h | h
  · obtain ⟨p, -, hp⟩ := List.mem_filterMap.mp h
    obtain ⟨u, -, rfl⟩ := Option.map_eq_some_iff.mp hp
    rfl
  · obtain ⟨c, -, hc⟩ := List.mem_filterMap.mp h
    obtain ⟨u, -, rfl⟩ := Option.map_eq_some_iff.mp hc
    rfl

/-- The only error in a complete listing is that nothing was found. -/
theorem err_of_mem_listV2Go {src : Url} {found : Bool} {pages : List Page} {obj : Object}
    (h : obj ∈ listV2Go src found (pages.map .ok)) (herr : obj.err ≠ none) :
    obj = Object.withError .noObjectFound ∧ found = false ∧
      ∀ page ∈ pages, pageObjects src page = [] := by
  induction pages generalizing found with
  | nil =>
    simp only [List.map_nil, listV2Go, listEnd] at h
    split at h
    · rename_i hcond
      refine ⟨List.mem_singleton.mp h, ?_, by simp⟩
      cases found with
      | false => rfl
      | true => simp at hcond
    · simp at h
  | cons page rest ih =>
    simp only [List.map_cons, listV2Go] at h
    rcases List.mem_append.mp h with h | h
    · exact absurd (pageObjects_err h) herr
    · obtain ⟨hobj, hfound, hrest⟩ := ih h
      have hempty : pageObjects src page = [] := by
        cases hp : pageObjects src page with
        | nil => rfl
        | cons o os => simp [hp] at hfound
      refine ⟨hobj, ?_, ?_⟩
      · cases found with
        | false => rfl
        | true => simp at hfound
      · intro page' hpage'
        rcases List.mem_cons.mp hpage' with rfl | hpage'
        · exact hempty
        · exact hrest page' hpage'

/-- **The files of a listing** are the objects of the bucket that the request
covers and whose decoded keys match. -/
theorem mem_list_of_serves {enc : Str → Str} {objs : List StoredObject} {s3 : S3} {src : Url}
    (h : Serves enc objs s3 src) (hv : src.isVersioned = false) {obj : Object}
    (herr : obj.err = none) (hdir : obj.typ.isDir = false) :
    obj ∈ s3.list src ↔
      ∃ o ∈ objs, (listV2Request src).Covers o.key ∧ contentObject src (o.entry enc) = some obj := by
  obtain ⟨pages, henum, hlist⟩ := list_of_serves h hv
  rw [hlist, mem_listV2Go_ok herr]
  constructor
  · rintro ⟨page, hpage, hmem⟩
    rcases List.mem_append.mp hmem with hmem | hmem
    · -- common prefixes are directories
      obtain ⟨p, -, hp⟩ := List.mem_filterMap.mp hmem
      obtain ⟨u, -, rfl⟩ := Option.map_eq_some_iff.mp hp
      cases hdir
    · obtain ⟨c, hc, hobj⟩ := List.mem_filterMap.mp hmem
      obtain ⟨o, ho, hcov, rfl⟩ := (henum c).mp ⟨page, hpage, hc⟩
      exact ⟨o, ho, hcov, hobj⟩
  · rintro ⟨o, ho, hcov, hobj⟩
    obtain ⟨page, hpage, hc⟩ := (henum (o.entry enc)).mpr ⟨o, ho, hcov, rfl⟩
    exact ⟨page, hpage, List.mem_append_right _ (List.mem_filterMap.mpr ⟨_, hc, hobj⟩)⟩

/-- A complete listing that finds an object has no error in it. -/
theorem err_of_mem_list {enc : Str → Str} {objs : List StoredObject} {s3 : S3} {src : Url}
    (h : Serves enc objs s3 src) (hv : src.isVersioned = false) {obj : Object}
    (hmem : obj ∈ s3.list src) :
    obj.err = none ∨ obj = Object.withError .noObjectFound ∧ ∀ o ∈ objs,
      (listV2Request src).Covers o.key → contentObject src (o.entry enc) = none := by
  by_cases herr : obj.err = none
  · exact .inl herr
  · right
    obtain ⟨pages, henum, hlist⟩ := list_of_serves h hv
    rw [hlist] at hmem
    obtain ⟨hobj, -, hempty⟩ := err_of_mem_listV2Go hmem herr
    refine ⟨hobj, fun o ho hcov => ?_⟩
    obtain ⟨page, hpage, hc⟩ := (henum (o.entry enc)).mpr ⟨o, ho, hcov, rfl⟩
    cases hcont : contentObject src (o.entry enc) with
    | none => rfl
    | some found =>
      have hin : found ∈ pageObjects src page :=
        List.mem_append_right _ (List.mem_filterMap.mpr ⟨_, hc, hcont⟩)
      rw [hempty page hpage] at hin
      cases hin

end Rs5cmd
