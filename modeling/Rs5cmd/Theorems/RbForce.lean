import Rs5cmd.Command.Bucket
import Rs5cmd.Theorems.ListV1
import Rs5cmd.Theorems.MultiDelete

/-!
# What `rb --force` deletes first

`rb --force` lists the bucket URL, which has no wildcard and so asks for one level:
keys with a slash come back as common prefixes, and those are what is submitted in
their place. Errors of the listing have no URL, so the feeder drops them.
-/

namespace Rs5cmd

/-- The request, or the deletion of one of its keys, fails. -/
def DeleteRequest.Fails (server : DeleteServer) (r : DeleteRequest) : Prop :=
  (∃ e, server r = .error e) ∨ ∃ out, server r = .ok out ∧ out.errors ≠ []

/-- Every key is submitted before the bucket is removed, and a failed listing or
deletion keeps it. -/
structure EmptiesFirst (bucket : Str) (objs : List StoredObject)
    (pages : List (Except StorageError Page)) (server : DeleteServer) (run : RbRun) : Prop where
  submitted : run.removed = true →
    ∀ o ∈ objs, (bucket, o.key, []) ∈ run.requests.flatMap DeleteRequest.named
  kept : ((∃ e, .error e ∈ pages) ∨ ∃ r ∈ run.requests, r.Fails server) → run.removed = false

/-- What a listing of `src` names, for the pages it is answered with. -/
def listedUrls (src : Url) (pages : List (Except StorageError Page)) : List Url :=
  (listV2 src pages).filterMap Object.url

/-! ## The names in a listing -/

section Listing

variable {enc : Str → Str} {src : Url}

/-- The objects of the pages are sent before the failure. -/
theorem listV2Go_append (found : Bool) (ps : List Page) (failure : List (Except StorageError Page)) :
    ∃ found', listV2Go src found (ps.map .ok ++ failure) =
      ps.flatMap (pageObjects src) ++ listV2Go src found' failure := by
  induction ps generalizing found with
  | nil => exact ⟨found, rfl⟩
  | cons page ps ih =>
    obtain ⟨found', h⟩ := ih (found || !(pageObjects src page).isEmpty)
    refine ⟨found', ?_⟩
    rw [List.map_cons, List.cons_append, listV2Go, h, List.flatMap_cons, List.append_assoc]

/-- The end of a listing names nothing, whether it failed or not. -/
theorem filterMap_url_listV2Go {failure : List (Except StorageError Page)}
    (hfailure : (∃ e, failure = [.error e]) ∨ failure = []) (found : Bool) :
    (listV2Go src found failure).filterMap Object.url = [] := by
  rcases hfailure with ⟨e, rfl⟩ | rfl
  · rfl
  · unfold listV2Go listEnd
    split <;> rfl

/-- **What a listing names**: the items it was sent. -/
theorem listedUrls_perm {sent : List ListItem} {ps : List Page}
    {failure : List (Except StorageError Page)}
    (hfailure : (∃ e, failure = [.error e]) ∨ failure = []) (hps : PagesOf enc sent ps) :
    (listedUrls src (ps.map .ok ++ failure)).Perm
      (sent.filterMap fun it => src.listed (enc it.name)) := by
  obtain ⟨found', h⟩ := listV2Go_append false ps failure
  have hurl : ∀ it : ListItem, (it.listed enc src).bind Object.url = src.listed (enc it.name) := by
    intro it
    cases it with
    | commonPrefix p =>
      show ((src.listed (enc p)).map _).bind Object.url = src.listed (enc p)
      cases src.listed (enc p) <;> rfl
    | object o =>
      show ((src.listed (enc o.key)).map _).bind Object.url = src.listed (enc o.key)
      cases src.listed (enc o.key) <;> rfl
  have hpages : (ps.flatMap (pageObjects src)).Perm _ := flatMap_pageObjects_perm hps
  have hperm := hpages.filterMap Object.url
  rw [List.filterMap_filterMap] at hperm
  rw [listedUrls, listV2, h, List.filterMap_append, filterMap_url_listV2Go hfailure found',
    List.append_nil]
  exact hperm.trans (List.Perm.of_eq (List.filterMap_congr fun it _ => hurl it))

end Listing

/-! ## A bucket URL -/

section Bucket

variable {name : Str}

/-- The URL of a bucket. -/
def bucketUrl (name : Str) : Url := Url.parsed .remote "s3".toList name [] {}

/-- It accepts every key. -/
theorem listed_bucketUrl (name raw : Str) : (bucketUrl name).listed raw =
    some { bucketUrl name with
      relativePath := (bucketUrl name).relativeOf (percentDecode raw)
      path := percentDecode raw } := by
  refine Url.listed_eq_some.mpr ⟨?_, rfl⟩
  exact (Url.isMatch_literal (p := []) rfl rfl _).mpr ⟨_, rfl⟩

/-- **What a bucket lists a key under**: itself, if there is no slash before its last
character, and otherwise something shorter. -/
theorem itemOf_bucketUrl {o : StoredObject} {it : ListItem}
    (h : (listV2Request (bucketUrl name)).itemOf o = some it) :
    it.name <+: o.key ∧ '/' ∉ it.name.dropLast ∧ (it.name = o.key ↔ '/' ∉ o.key.dropLast) := by
  obtain ⟨rest, hrest, hit⟩ := Option.map_eq_some_iff.mp h
  obtain rfl : o.key = rest := Str.stripPrefix_eq_some.mp hrest
  have hd : (listV2Request (bucketUrl name)).delimiter = some ['/'] := rfl
  have hpre : (listV2Request (bucketUrl name)).keyPrefix = [] := rfl
  simp only [hd, hpre, Option.bind_some, List.nil_append] at hit
  rcases Str.splitOnce_char '/' o.key with ⟨hnone, hslash⟩ | ⟨a, b, hsome, hkey, ha⟩
  · rw [hnone, Option.map_none] at hit
    subst hit
    have hdrop : '/' ∉ o.key.dropLast := fun hmem => hslash (List.mem_of_mem_dropLast hmem)
    exact ⟨List.prefix_refl _, hdrop, iff_of_true rfl hdrop⟩
  · rw [hsome, Option.map_some] at hit
    subst hit
    rw [hkey]
    refine ⟨⟨b, by simp [ListItem.name]⟩, by simpa [ListItem.name] using ha, ?_⟩
    cases b with
    | nil => simp [ListItem.name, ha]
    | cons c b =>
      refine iff_of_false ?_ ?_
      · intro heq
        have := congrArg List.length heq
        simp [ListItem.name] at this
      · intro hno
        refine hno ?_
        rw [List.dropLast_append_of_ne_nil (by simp)]
        simp

/-- A bucket lists every key. -/
theorem exists_itemOf_bucketUrl (name : Str) (o : StoredObject) :
    ∃ it, (listV2Request (bucketUrl name)).itemOf o = some it := by
  have hstrip : Str.stripPrefix (listV2Request (bucketUrl name)).keyPrefix o.key = some o.key :=
    Str.stripPrefix_eq_some.mpr rfl
  rw [ListRequest.itemOf, hstrip]
  exact ⟨_, rfl⟩

/-- **What is listed**: URLs in the bucket, and their paths are the names of the
items as a listing shows them. -/
theorem listedUrls_bucketUrl {sent : List ListItem} {ps : List Page}
    {failure : List (Except StorageError Page)}
    (hfailure : (∃ e, failure = [.error e]) ∨ failure = []) (hps : PagesOf urlEncode sent ps) :
    (∀ u ∈ listedUrls (bucketUrl name) (ps.map .ok ++ failure), u.bucket = name) ∧
      ∀ key, (∃ u ∈ listedUrls (bucketUrl name) (ps.map .ok ++ failure), u.path = key) ↔
        ∃ it ∈ sent, shownKey it.name = key := by
  have hperm : (listedUrls (bucketUrl name) (ps.map .ok ++ failure)).Perm _ :=
    listedUrls_perm hfailure hps
  have hmem : ∀ u ∈ listedUrls (bucketUrl name) (ps.map .ok ++ failure),
      u.bucket = name ∧ ∃ it ∈ sent, shownKey it.name = u.path := by
    intro u hu
    obtain ⟨it, hit, hlisted⟩ := List.mem_filterMap.mp (hperm.mem_iff.mp hu)
    rw [listed_bucketUrl] at hlisted
    obtain rfl := Option.some.inj hlisted
    exact ⟨rfl, it, hit, (percentDecode_urlEncode it.name).symm⟩
  refine ⟨fun u hu => (hmem u hu).1, fun key => ⟨?_, ?_⟩⟩
  · rintro ⟨u, hu, rfl⟩
    exact (hmem u hu).2
  · rintro ⟨it, hit, rfl⟩
    refine ⟨_, hperm.mem_iff.mpr (List.mem_filterMap.mpr ⟨it, hit, listed_bucketUrl name _⟩), ?_⟩
    exact percentDecode_urlEncode it.name

/-- A slash before the end of a key is one before the end of the shown key. -/
theorem slash_mem_dropLast_shownKey {key : Str} :
    '/' ∈ (shownKey key).dropLast ↔ '/' ∈ key.dropLast := by
  have hslash : ∀ c : Char, plusForSpace c = '/' ↔ c = '/' := by
    intro c
    unfold plusForSpace
    split
    · rename_i hc
      subst hc
      decide
    · rfl
  rw [shownKey, ← List.map_dropLast, List.mem_map]
  constructor
  · rintro ⟨c, hc, heq⟩
    rwa [(hslash c).mp heq] at hc
  · exact fun h => ⟨'/', h, rfl⟩

/-- **What a bucket that is listed to the end names**: every key, iff none has a space
or a slash before its last character. -/
theorem names_all_iff {objs : List StoredObject} {sent : List ListItem}
    (hsent : sent.Sublist ((listV2Request (bucketUrl name)).items objs))
    (hall : (∀ it ∈ (listV2Request (bucketUrl name)).items objs,
        percentDecode (urlEncode it.name) = it.name) →
      sent = (listV2Request (bucketUrl name)).items objs) :
    (∀ o ∈ objs, ∃ it ∈ sent, shownKey it.name = o.key) ↔
      ∀ o ∈ objs, ' ' ∉ o.key ∧ '/' ∉ o.key.dropLast := by
  constructor
  · intro h o ho
    obtain ⟨it, hit, hshown⟩ := h o ho
    obtain ⟨o', -, hitem⟩ := mem_items.mp (hsent.mem hit)
    rw [← hshown, slash_mem_dropLast_shownKey]
    exact ⟨space_not_mem_shownKey it.name, (itemOf_bucketUrl hitem).2.1⟩
  · intro h
    -- an item is then the object itself, so its name survives the encoding
    have hname : ∀ {o : StoredObject} {it : ListItem}, o ∈ objs →
        (listV2Request (bucketUrl name)).itemOf o = some it → it.name = o.key ∧ shownKey it.name = o.key := by
      intro o it ho hitem
      have heq := (itemOf_bucketUrl hitem).2.2.mpr (h o ho).2
      exact ⟨heq, by rw [heq]; exact shownKey_eq_self.mpr (h o ho).1⟩
    have heq := hall fun it hit => by
      obtain ⟨o, ho, hitem⟩ := mem_items.mp hit
      rw [percentDecode_urlEncode, (hname ho hitem).1]
      exact shownKey_eq_self.mpr (h o ho).1
    intro o ho
    obtain ⟨it, hitem⟩ := exists_itemOf_bucketUrl name o
    refine ⟨it, ?_, (hname ho hitem).2⟩
    rw [heq]
    exact mem_items.mpr ⟨o, ho, hitem⟩

end Bucket

/-! ## The deletions -/

section Deletions

variable {bucket : Str} {urls : List Url} {server : DeleteServer}

/-- A failed deletion is reported. -/
theorem any_err_deleteChunk (hb : Url.BucketName bucket) {batch : List Url} (hne : batch ≠ [])
    (hbucket : ∀ u ∈ batch, u.bucket = bucket) :
    (deleteChunk false server batch).results.any (fun obj => obj.err.isSome) = true ↔
      (deleteRequest bucket batch).Fails server := by
  cases hout : server (deleteRequest bucket batch) with
  | error e =>
    rw [deleteChunk_failed hne hbucket hout]
    exact iff_of_true rfl (.inl ⟨e, hout⟩)
  | ok out =>
    have herrors : ((out.errors.map (errorResult bucket)).any fun obj => obj.err.isSome) =
        !out.errors.isEmpty := by
      cases out.errors <;> rfl
    rw [deleteChunk_answered hb hne hbucket hout, List.any_append, herrors, Bool.or_eq_true,
      Bool.not_eq_true', List.isEmpty_eq_false_iff]
    constructor
    · rintro (hdeleted | hne)
      · obtain ⟨obj, hobj, herr⟩ := List.any_eq_true.mp hdeleted
        obtain ⟨key, -, rfl⟩ := List.mem_map.mp hobj
        cases herr
      · exact .inr ⟨out, hout, hne⟩
    · rintro (⟨e, he⟩ | ⟨out', hout', hne⟩)
      · rw [hout] at he
        cases he
      · obtain rfl := Except.ok.inj (hout.symm.trans hout')
        exact .inr hne

/-- **A run reports an error just when one of its deletions fails.** -/
theorem any_err_multiDelete (hb : Url.BucketName bucket) (hurls : ∀ u ∈ urls, u.bucket = bucket) :
    (multiDelete false server urls).results.any (fun obj => obj.err.isSome) = true ↔
      ∃ batch ∈ batches urls [], (deleteRequest bucket batch).Fails server := by
  have hbatch : ∀ batch ∈ batches urls [],
      ((deleteChunk false server batch).results.any fun obj => obj.err.isSome) = true ↔
        (deleteRequest bucket batch).Fails server := by
    intro batch hmem
    refine any_err_deleteChunk hb (length_of_mem_batches hmem (by decide)).1 fun u hu => ?_
    exact hurls u (mem_batches_iff.mpr ⟨batch, hmem, hu⟩)
  rw [multiDelete, List.any_flatMap, List.any_eq_true]
  exact exists_congr fun batch => and_congr_right fun hmem => hbatch batch hmem

end Deletions

/-! ## `rb --force` -/

/-- What a forced run asks for, and when it goes on to the bucket. -/
theorem runRb_force {env : RbEnv} (hdry : env.dryRun = false) {arg : Str} {url : Url} {name : Str}
    (hurl : bucketName arg = .ok (url, name)) {s3 : S3} (hs3 : env.newS3 url = .ok s3)
    {pages : List (Except StorageError Page)} (hanswers : s3.Answers url pages) :
    (runRb env { bucket := arg, force := true }).requests =
        (multiDelete false env.deleteObjects (listedUrls url pages)).requests ∧
      (runRb env { bucket := arg, force := true }).removed =
        !(multiDelete false env.deleteObjects (listedUrls url pages)).results.any
          fun obj => obj.err.isSome := by
  have hv : url.isVersioned = false := by
    rw [(bucketName_eq_ok hurl).2]
    rfl
  have hrun : runRb env { bucket := arg, force := true } =
      emptyAndRemove env true (listV2 url pages) := by
    simp only [runRb, hurl, hs3, S3.list_of_answers hanswers hv]
  rw [hrun, emptyAndRemove, hdry, if_pos rfl, listedUrls]
  split
  · rename_i herr
    exact ⟨rfl, by rw [herr]; rfl⟩
  · rename_i herr
    exact ⟨rfl, by rw [Bool.eq_false_iff.mpr herr]⟩

/-- **When `rb --force` empties the bucket first, exactly**: a deletion fails, or the
listing is answered to its end and no key has a space or a slash before its last
character. -/
theorem rb_force_empties_iff {env : RbEnv} (hdry : env.dryRun = false) {arg : Str} {url : Url}
    {name : Str} (hurl : bucketName arg = .ok (url, name)) {s3 : S3} (hs3 : env.newS3 url = .ok s3)
    {objs : List StoredObject} {pages : List (Except StorageError Page)}
    (hanswers : s3.Answers url pages)
    (hlists : ListsItems urlEncode ((listV2Request url).items objs) pages) :
    EmptiesFirst name objs pages env.deleteObjects (runRb env { bucket := arg, force := true }) ↔
      (∃ batch ∈ batches (listedUrls url pages) [],
        (deleteRequest name batch).Fails env.deleteObjects) ∨
      (∀ e, .error e ∉ pages) ∧ ∀ o ∈ objs, ' ' ∉ o.key ∧ '/' ∉ o.key.dropLast := by
  obtain ⟨hb, hname⟩ := bucketName_eq_ok hurl
  obtain rfl : url = bucketUrl name := hname
  obtain ⟨sent, ps, failure, rfl, hps, hsent, hend⟩ := hlists
  have hfailure : (∃ e, failure = [.error e]) ∨ failure = [] := hend.imp_right And.left
  obtain ⟨hbucket, hpaths⟩ := listedUrls_bucketUrl hfailure hps
  have hfails := @any_err_multiDelete name _ env.deleteObjects hb hbucket
  obtain ⟨hrequests, hremoved⟩ := runRb_force hdry hurl hs3 hanswers
  -- what is submitted is what is listed
  have hsubmitted : (∀ o ∈ objs, (name, o.key, ([] : Str)) ∈
      (runRb env { bucket := arg, force := true }).requests.flatMap DeleteRequest.named) ↔
      ∀ o ∈ objs, ∃ it ∈ sent, shownKey it.name = o.key := by
    refine forall₂_congr fun o _ => ?_
    rw [hrequests, multiDelete_named hbucket, ← hpaths, List.mem_map]
    refine exists_congr fun u => and_congr_right fun _ => ?_
    simp
  have hkeeps : (∃ r ∈ (runRb env { bucket := arg, force := true }).requests,
      r.Fails env.deleteObjects) ↔ ∃ batch ∈ batches (listedUrls (bucketUrl name)
        (ps.map .ok ++ failure)) [], (deleteRequest name batch).Fails env.deleteObjects := by
    rw [hrequests, multiDelete_requests hbucket]
    simp only [List.mem_map, exists_exists_and_eq_and]
  by_cases hfail : ∃ batch ∈ batches (listedUrls (bucketUrl name) (ps.map .ok ++ failure)) [],
      (deleteRequest name batch).Fails env.deleteObjects
  · -- a failed deletion keeps the bucket
    have hkept : (runRb env { bucket := arg, force := true }).removed = false := by
      rw [hremoved, hfails.mpr hfail]
      rfl
    refine iff_of_true ⟨fun h => ?_, fun _ => hkept⟩ (.inl hfail)
    rw [hkept] at h
    cases h
  · have hgone : (runRb env { bucket := arg, force := true }).removed = true := by
      rw [hremoved, Bool.eq_false_iff.mpr fun h => hfail (hfails.mp h)]
      rfl
    constructor
    · intro h
      have hno : ∀ e, .error e ∉ ps.map .ok ++ failure := by
        intro e he
        have := h.kept (.inl ⟨e, he⟩)
        rw [hgone] at this
        cases this
      have hend := hend.resolve_left fun ⟨e, he⟩ => hno e (by simp [he])
      refine .inr ⟨hno, (names_all_iff hsent hend.2).mp ?_⟩
      exact hsubmitted.mp (h.submitted hgone)
    · rintro (h | ⟨hno, hkeys⟩)
      · exact absurd h hfail
      have hend := hend.resolve_left fun ⟨e, he⟩ => hno e (by simp [he])
      refine ⟨fun _ => hsubmitted.mpr ((names_all_iff hsent hend.2).mpr hkeys), ?_⟩
      rintro (⟨e, he⟩ | h)
      · exact absurd he (hno e)
      · exact absurd (hkeeps.mp h) hfail

namespace RbForceSample

def objs (keys : List String) : List StoredObject :=
  keys.map fun k => { key := k.toList, size := 3 }

def s3 (keys : List String) : S3 where
  listPages := serveListV2 urlEncode (objs keys)
  listV1 _ := .error .noObjectFound
  listVersions _ := .error .noObjectFound
  headObject _ _ _ := .ok none
  fuel := 1

/-- A bucket whose store deletes what it is told to. -/
def env (keys : List String) : RbEnv where
  newS3 _ := .ok (s3 keys)
  deleteObjects := refusing []

/-- The answers to the listing of the bucket `b`. -/
def pages (keys : List String) : List (Except StorageError Page) :=
  (s3 keys).listPages (listV2Request (bucketUrl "b".toList))

theorem listsItems_pages (keys : List String) :
    ListsItems urlEncode ((listV2Request (bucketUrl "b".toList)).items (objs keys)) (pages keys) :=
  (answersListV2_serve urlEncode (objs keys)).listsItems rfl

/-- A flat bucket, with a directory marker. -/
theorem rb_force_empties_flat : EmptiesFirst "b".toList (objs ["x", "y/"]) (pages ["x", "y/"])
    (refusing []) (runRb (env ["x", "y/"]) { bucket := "s3://b".toList, force := true }) := by
  have hdry : (env ["x", "y/"]).dryRun = false := rfl
  have hurl : bucketName "s3://b".toList = .ok (bucketUrl "b".toList, "b".toList) := by
    decide +kernel
  have hanswers : (s3 ["x", "y/"]).Answers (bucketUrl "b".toList) (pages ["x", "y/"]) := rfl
  refine (rb_force_empties_iff hdry hurl rfl hanswers (listsItems_pages _)).mpr (.inr ⟨?_, ?_⟩)
  · intro e he
    cases List.mem_singleton.mp he
  · decide +kernel

/-- Of a bucket with the key `a/b`, the common prefix `a/` is submitted and then the
bucket is removed. -/
theorem rb_force_skips_nested : ReportsEach (refusing []) ∧
    AnswersListV2 urlEncode (objs ["a/b"]) (s3 ["a/b"]).listPages ∧
    ¬ EmptiesFirst "b".toList (objs ["a/b"]) (pages ["a/b"]) (refusing [])
      (runRb (env ["a/b"]) { bucket := "s3://b".toList, force := true }) := by
  refine ⟨reportsEach_refusing [], answersListV2_serve urlEncode _, fun h => ?_⟩
  have hmem := h.submitted (by decide +kernel) _ List.mem_cons_self
  revert hmem
  decide +kernel

end RbForceSample

end Rs5cmd
