import Rs5cmd.Mount.HandleSpec
import Rs5cmd.Storage.S3.Paging

/-!
# What a bucket answers the mount

The listings of a mount when the server tells what the bucket holds: some order of
its objects, in pages, through either listing API. Which keys a listing of a
directory is about depends on the directory's key, since that is parsed as a
wildcard: below a literal key it is the keys that start with it, and else those that
match.
-/

namespace Rs5cmd

open Cmd

/-- The objects as the server lists them, each once. -/
structure Describes (objs : List StoredObject) (bucket : Str → Option Stored) : Prop where
  nodup : (objs.map StoredObject.key).Nodup
  mem : ∀ key, (∃ o ∈ objs, o.key = key) ↔ bucket key ≠ none
  size : ∀ o ∈ objs, ∀ st, bucket o.key = some st → o.size = st.bytes.length

/-- A listing of `u` by a server with these objects, in some order and in pages, whose names
survive the decoding. -/
def HonestList (bucket : Str → Option Stored) (u : Url) (list : List Object) : Prop :=
  ∃ (objs : List StoredObject) (s3 : S3) (enc : Str → Str) (pages : List Page),
    Describes objs bucket ∧
      (∀ it ∈ (listV2Request u).items objs, percentDecode (enc it.name) = it.name) ∧
      PagesOf enc ((listV2Request u).items objs) pages ∧ s3.Answers u (pages.map .ok) ∧
        list = s3.list u

/-- `list_url_recursive`. -/
def VfsConfig.treeUrl (cfg : VfsConfig) (dirKey : Str) : Url := { cfg.url dirKey with delimiter := [] }

/-- The key is one that a listing of the directory is about. -/
def VfsConfig.Takes (cfg : VfsConfig) (dirKey key : Str) : Prop := (cfg.url dirKey).isMatch key = true

/-- The keys that a listing of the directory gives. -/
def VfsConfig.Lists (cfg : VfsConfig) (bucket : Str → Option Stored) (dirKey key : Str) : Prop :=
  bucket key ≠ none ∧ cfg.Takes dirKey key

section Taken

variable {cfg : VfsConfig} {dirKey : Str}

theorem takes_literal (hglob : hasGlobCharacter dirKey = false) (key : Str) :
    cfg.Takes dirKey key ↔ dirKey <+: key := by
  have hmatch := Url.isMatch_literal (u := cfg.url dirKey) hglob rfl key
  constructor
  · intro h
    obtain ⟨t, ht⟩ := hmatch.mp h
    exact ⟨t, ht.symm⟩
  · rintro ⟨t, ht⟩
    exact hmatch.mpr ⟨t, ht.symm⟩

/-- What a listing is about starts with what the request asks for. -/
theorem keyPrefix_of_takes {key : Str} (h : cfg.Takes dirKey key) :
    (listV2Request (cfg.url dirKey)).keyPrefix <+: key := by
  have hmatch : matchToks (Url.filterToks dirKey) key = true := h
  rw [Url.filterToks, matchToks_lits] at hmatch
  obtain ⟨t, ht, -⟩ := hmatch
  exact ⟨t, ht.symm⟩

end Taken

/-! ## What is listed -/

/-- What a listing makes of an item. -/
def ListItem.toObject (u : Url) : ListItem → Object
  | .commonPrefix p =>
    { url := some { u with relativePath := u.relativeOf p, path := p }, typ := .dir }
  | .object o =>
    { url := some { u with relativePath := u.relativeOf o.key, path := o.key }
      etag := trimQuotes o.etag
      modTime := some (fromSecs o.lastModified)
      typ := .file
      size := o.size
      storageClass := o.storageClass }

theorem toObject_path (u : Url) (it : ListItem) : (it.toObject u).url.map Url.path = some it.name := by
  cases it with
  | commonPrefix p => rfl
  | object o => rfl

theorem toObject_err (u : Url) (it : ListItem) : (it.toObject u).err = none := by
  cases it with
  | commonPrefix p => rfl
  | object o => rfl

/-- A listing of the directory, of one level or of the whole tree. -/
structure IsDirUrl (dirKey : Str) (u : Url) : Prop where
  keyPrefix : u.keyPrefix = Url.literalPart dirKey
  filterRegex : u.filterRegex = some ⟨Url.filterToks dirKey⟩
  delimiter : u.delimiter = [] ∨ u.delimiter = ['/'] ∧ Url.globPart dirKey = []
  notVersioned : u.isVersioned = false

theorem isDirUrl_url (cfg : VfsConfig) (dirKey : Str) : IsDirUrl dirKey (cfg.url dirKey) where
  keyPrefix := rfl
  filterRegex := rfl
  delimiter := by
    by_cases hglob : Url.globPart dirKey = []
    · exact Or.inr ⟨if_pos hglob, hglob⟩
    · exact Or.inl (if_neg hglob)
  notVersioned := rfl

theorem isDirUrl_treeUrl (cfg : VfsConfig) (dirKey : Str) : IsDirUrl dirKey (cfg.treeUrl dirKey) where
  keyPrefix := rfl
  filterRegex := rfl
  delimiter := Or.inl rfl
  notVersioned := rfl

section Listed

variable {bucket : Str → Option Stored} {cfg : VfsConfig} {dirKey : Str} {u : Url}

/-- What a listing sends for an item. -/
theorem listed_eq_some_iff {enc : Str → Str} {it : ListItem} {obj : Object}
    (henc : percentDecode (enc it.name) = it.name) :
    it.listed enc u = some obj ↔ u.isMatch it.name = true ∧ obj = it.toObject u := by
  cases it with
  | commonPrefix p =>
    replace henc : percentDecode (enc p) = p := henc
    show (u.listed (enc p)).map _ = some obj ↔ _
    rw [Option.map_eq_some_iff]
    constructor
    · rintro ⟨v, hv, rfl⟩
      obtain ⟨hmatch, rfl⟩ := Url.listed_eq_some.mp hv
      rw [henc] at hmatch ⊢
      exact ⟨hmatch, rfl⟩
    · rintro ⟨hmatch, rfl⟩
      refine ⟨_, Url.listed_eq_some.mpr ⟨by rw [henc]; exact hmatch, rfl⟩, ?_⟩
      rw [henc]
      rfl
  | object o =>
    replace henc : percentDecode (enc o.key) = o.key := henc
    show (u.listed (enc o.key)).map _ = some obj ↔ _
    rw [Option.map_eq_some_iff]
    constructor
    · rintro ⟨v, hv, rfl⟩
      obtain ⟨hmatch, rfl⟩ := Url.listed_eq_some.mp hv
      rw [henc] at hmatch ⊢
      exact ⟨hmatch, rfl⟩
    · rintro ⟨hmatch, rfl⟩
      refine ⟨_, Url.listed_eq_some.mpr ⟨by rw [henc]; exact hmatch, rfl⟩, ?_⟩
      rw [henc]
      rfl

/-- An honest listing: the matching items of the objects in some order, or that
nothing was found. -/
structure Sent (bucket : Str → Option Stored) (u : Url) (found list : List Object) : Prop where
  mem : ∃ objs, Describes objs bucket ∧ ∀ obj, obj ∈ found ↔
    ∃ it ∈ (listV2Request u).items objs, u.isMatch it.name = true ∧ obj = it.toObject u
  list_eq : list = found ++ listEnd u (!found.isEmpty)

theorem sent_listV2 {objs : List StoredObject} (hobjs : Describes objs bucket) {enc : Str → Str}
    (henc : ∀ it ∈ (listV2Request u).items objs, percentDecode (enc it.name) = it.name)
    {pages : List Page} (hpages : PagesOf enc ((listV2Request u).items objs) pages) :
    Sent bucket u (pages.flatMap (pageObjects u)) (listV2 u (pages.map .ok)) where
  mem := by
    refine ⟨objs, hobjs, fun obj => ?_⟩
    rw [(flatMap_pageObjects_perm hpages).mem_iff, List.mem_filterMap]
    exact exists_congr fun it => and_congr_right fun hit => listed_eq_some_iff (henc it hit)
  list_eq := by rw [listV2, listV2Go_ok, Bool.false_or]

theorem HonestList.sent {list : List Object} (h : HonestList bucket u list)
    (hv : u.isVersioned = false) : ∃ found, Sent bucket u found list := by
  obtain ⟨objs, s3, enc, pages, hobjs, henc, hpages, hanswers, rfl⟩ := h
  rw [S3.list_of_answers hanswers hv]
  exact ⟨_, sent_listV2 hobjs henc hpages⟩

/-- The items that a page holds, all in one page. -/
def pageOf (enc : Str → Str) (items : List ListItem) : Page where
  commonPrefixes := items.filterMap (ListItem.encodedPrefix enc)
  contents := items.filterMap (ListItem.encodedEntry enc)

theorem pagesOf_pageOf (enc : Str → Str) (items : List ListItem) :
    PagesOf enc items [pageOf enc items] :=
  ⟨[items], List.flatten_singleton, List.Forall₂.cons ⟨rfl, rfl⟩ List.Forall₂.nil⟩

/-- A listing in one page. -/
def onePage (enc : Str → Str) (objs : List StoredObject) (u : Url) : List Object :=
  listV2 u [.ok (pageOf enc ((listV2Request u).items objs))]

/-- Every name of a listing survives the encoding. -/
def KeepsNames (enc : Str → Str) (objs : List StoredObject) : Prop :=
  ∀ req : ListRequest, ∀ it ∈ req.items objs, percentDecode (enc it.name) = it.name

/-- Names survive where every byte is escaped. -/
theorem keepsNames_encodeAll (objs : List StoredObject) : KeepsNames percentEncodeAll objs :=
  fun _ it _ => percentDecode_encodeAll it.name

/-- Without spaces, names survive as the service writes them. -/
theorem keepsNames_urlEncode {objs : List StoredObject} (hkeys : ∀ o ∈ objs, ' ' ∉ o.key) :
    KeepsNames urlEncode objs :=
  fun _ _ h => percentDecode_name hkeys h

theorem honestList_onePage {enc : Str → Str} {objs : List StoredObject}
    (hobjs : Describes objs bucket) (henc : KeepsNames enc objs) (hv : u.isVersioned = false) :
    HonestList bucket u (onePage enc objs u) := by
  let items := (listV2Request u).items objs
  let s3 : S3 :=
    { listPages := fun _ => [.ok (pageOf enc items)]
      listV1 := fun _ => .ok {}
      listVersions := fun _ => .ok {}
      headObject := fun _ _ _ => .ok none
      fuel := 0 }
  refine ⟨objs, s3, enc, [pageOf enc items], hobjs, henc _, pagesOf_pageOf enc items, ?_, ?_⟩
  · rfl
  · have hanswers : s3.Answers u [.ok (pageOf enc items)] := rfl
    exact (S3.list_of_answers hanswers hv).symm

/-- Its common prefixes come first. -/
theorem sent_onePage {enc : Str → Str} {objs : List StoredObject} (hobjs : Describes objs bucket)
    (henc : KeepsNames enc objs) :
    Sent bucket u (pageObjects u (pageOf enc ((listV2Request u).items objs)))
      (onePage enc objs u) := by
  have hsent := sent_listV2 hobjs (henc (listV2Request u))
    (pagesOf_pageOf enc ((listV2Request u).items objs))
  rw [List.flatMap_singleton] at hsent
  exact hsent

/-! ### The items of a directory -/

variable {o : StoredObject} {it : ListItem}

theorem IsDirUrl.isMatch_iff (hu : IsDirUrl dirKey u) (cfg : VfsConfig) (key : Str) :
    u.isMatch key = true ↔ cfg.Takes dirKey key := by
  unfold VfsConfig.Takes Url.isMatch
  rw [hu.filterRegex]
  rfl

/-- The item of an object of the directory: the object itself, or the common prefix
of all objects below one of its children. -/
theorem IsDirUrl.itemOf_cases (hu : IsDirUrl dirKey u)
    (h : (listV2Request u).itemOf o = some it) :
    it = .object o ∨ ∃ a b, hasGlobCharacter dirKey = false ∧ '/' ∉ a ∧
      o.key = dirKey ++ (a ++ '/' :: b) ∧ it = .commonPrefix (dirKey ++ (a ++ ['/'])) := by
  obtain ⟨rest, hrest, hit⟩ := Option.map_eq_some_iff.mp h
  rw [Str.stripPrefix_eq_some] at hrest
  have hkey : (listV2Request u).keyPrefix = Url.literalPart dirKey := hu.keyPrefix
  have hdelim : (listV2Request u).delimiter = nonEmpty u.delimiter := rfl
  rw [hdelim] at hit
  rcases hu.delimiter with hd | ⟨hd, hglob⟩
  · rw [hd] at hit
    exact Or.inl hit.symm
  · have hsome : nonEmpty ['/'] = some ['/'] := rfl
    rw [hd, hsome, Option.bind_some] at hit
    rw [hkey, Url.literalPart_of_globPart hglob] at hrest hit
    rcases Str.splitOnce_char '/' rest with ⟨hnone, -⟩ | ⟨a, b, hsome, rfl, ha⟩
    · rw [hnone] at hit
      exact Or.inl hit.symm
    · rw [hsome] at hit
      exact Or.inr ⟨a, b, Url.hasGlobCharacter_of_globPart hglob, ha, hrest, hit.symm⟩

/-- A listing is about an item as it is about its objects. -/
theorem IsDirUrl.isMatch_item (hu : IsDirUrl dirKey u) (cfg : VfsConfig)
    (h : (listV2Request u).itemOf o = some it) :
    u.isMatch it.name = true ↔ cfg.Takes dirKey o.key := by
  rw [hu.isMatch_iff cfg]
  rcases hu.itemOf_cases h with rfl | ⟨a, b, hlit, -, hkey, rfl⟩
  · rfl
  · rw [takes_literal hlit, takes_literal hlit, hkey]
    exact iff_of_true (List.prefix_append _ _) (List.prefix_append _ _)

theorem IsDirUrl.exists_item (hu : IsDirUrl dirKey u) (h : cfg.Takes dirKey o.key) :
    ∃ it, (listV2Request u).itemOf o = some it := by
  obtain ⟨rest, hrest⟩ := keyPrefix_of_takes h
  have hstrip : Str.stripPrefix (listV2Request u).keyPrefix o.key = some rest := by
    rw [Str.stripPrefix_eq_some, ← hrest]
    exact congrArg (· ++ rest) hu.keyPrefix.symm
  exact ⟨_, by rw [ListRequest.itemOf, hstrip, Option.map_some]⟩

/-- The item of the directory's own marker is the marker. -/
theorem IsDirUrl.item_name_eq_iff (hu : IsDirUrl dirKey u)
    (h : (listV2Request u).itemOf o = some it) : it.name = dirKey ↔ o.key = dirKey := by
  rcases hu.itemOf_cases h with rfl | ⟨a, b, -, -, hkey, rfl⟩
  · rfl
  · rw [hkey]
    show dirKey ++ (a ++ ['/']) = dirKey ↔ _
    simp

/-- What a listing of the directory sends. -/
theorem Sent.mem_iff {found list : List Object} (h : Sent bucket u found list)
    (hu : IsDirUrl dirKey u) (cfg : VfsConfig) : ∃ objs, Describes objs bucket ∧ ∀ obj, obj ∈ found ↔
      ∃ o ∈ objs, cfg.Takes dirKey o.key ∧
        ∃ it, (listV2Request u).itemOf o = some it ∧ obj = it.toObject u := by
  obtain ⟨objs, hobjs, hmem⟩ := h.mem
  refine ⟨objs, hobjs, fun obj => (hmem obj).trans ?_⟩
  constructor
  · rintro ⟨it, hit, hmatch, rfl⟩
    obtain ⟨o, ho, hitem⟩ := mem_items.mp hit
    exact ⟨o, ho, (hu.isMatch_item cfg hitem).mp hmatch, it, hitem, rfl⟩
  · rintro ⟨o, ho, htakes, it, hitem, rfl⟩
    exact ⟨it, mem_items.mpr ⟨o, ho, hitem⟩, (hu.isMatch_item cfg hitem).mpr htakes, rfl⟩

theorem Sent.err {found list : List Object} (h : Sent bucket u found list) :
    ∀ obj ∈ found, obj.err = none := by
  obtain ⟨objs, -, hmem⟩ := h.mem
  intro obj hobj
  obtain ⟨it, -, -, rfl⟩ := (hmem obj).mp hobj
  exact toObject_err u it

end Listed

/-! ## What the mount makes of it -/

section Answers

variable {cfg : VfsConfig} {dirKey : Str} {u : Url} {s : Vfs} {list : List Object}

/-- The paths of listed objects. -/
def listedPaths (objs : List Object) : List Str := objs.filterMap fun o => o.url.map Url.path

theorem listedKeys_append {objs : List Object} (hobjs : ∀ o ∈ objs, o.err = none) (rest : List Object)
    (s : Vfs) :
    Vfs.listedKeys (objs ++ rest) s =
      match Vfs.listedKeys rest s with
      | (.ok keys, t) => (.ok (listedPaths objs ++ keys), t)
      | (.error e, t) => (.error e, t) := by
  induction objs with
  | nil =>
    rw [List.nil_append]
    rcases Vfs.listedKeys rest s with ⟨_ | keys, t⟩ <;> rfl
  | cons o objs ih =>
    have hne := hobjs o List.mem_cons_self
    have ih := ih fun x hx => hobjs x (List.mem_cons_of_mem o hx)
    rw [List.cons_append, Vfs.listedKeys]
    simp only [hne]
    cases hrest : Vfs.listedKeys rest s with
    | mk r t =>
      rw [hrest] at ih
      cases r with
      | error e => exact bind_error ih
      | ok keys =>
        rw [bind_ok ih]
        simp only [listedPaths, List.filterMap_cons]
        cases o.url <;> rfl

theorem listedKeys_listEnd (src : Url) (found : Bool) (s : Vfs) :
    Vfs.listedKeys (listEnd src found) s = (.ok [], s) := by
  unfold listEnd
  split <;> rfl

theorem stat_missing (h : s.bucket u.path = none) :
    Vfs.stat none u s = (.error (notFound u.absolute), s) := by
  simp only [Vfs.stat, get_bind, h, fail_run]

/-- The directory is there for a listing when there is a key in it. -/
theorem HonestList.prefixExists (h : HonestList s.bucket (cfg.url dirKey) list) :
    ∃ b, Vfs.prefixExists cfg list dirKey s = (.ok b, s) ∧
      (b = true ↔ ∃ key, cfg.Lists s.bucket dirKey key) := by
  have hu := isDirUrl_url cfg dirKey
  obtain ⟨found, hsent⟩ := h.sent rfl
  obtain ⟨objs, hobjs, hmem⟩ := hsent.mem_iff hu cfg
  have hany : found ≠ [] ↔ ∃ key, cfg.Lists s.bucket dirKey key := by
    constructor
    · intro hne
      obtain ⟨obj, hobj⟩ := List.exists_mem_of_ne_nil found hne
      obtain ⟨o, ho, htakes, -⟩ := (hmem obj).mp hobj
      exact ⟨o.key, (hobjs.mem o.key).mp ⟨o, ho, rfl⟩, htakes⟩
    · rintro ⟨key, hkey, htakes⟩
      obtain ⟨o, ho, rfl⟩ := (hobjs.mem key).mpr hkey
      obtain ⟨it, hit⟩ := hu.exists_item htakes
      exact List.ne_nil_of_mem ((hmem _).mpr ⟨o, ho, htakes, it, hit, rfl⟩)
  have herr := hsent.err
  refine ⟨!found.isEmpty, ?_, ?_⟩
  · unfold Vfs.prefixExists
    rw [cfg.objUrl_eq, ofExcept_ok_bind, hsent.list_eq]
    cases found with
    | nil =>
      rw [List.nil_append]
      unfold listEnd
      split
      · rfl
      · rfl
    | cons obj found =>
      have hnone := herr obj List.mem_cons_self
      simp only [List.cons_append, hnone]
      rfl
  · rw [← hany]
    cases found with
    | nil => simp
    | cons obj found => simp

/-- The loop looks for an object other than the marker. -/
theorem dirIsEmptyLoop_listEnd {found : List Object} (herr : ∀ obj ∈ found, obj.err = none)
    (hurl : ∀ obj ∈ found, obj.url ≠ none) (u : Url) (any : Bool) :
    ∃ b, Vfs.dirIsEmptyLoop dirKey (found ++ listEnd u any) s = (.ok b, s) ∧
      (b = true ↔ ∀ obj ∈ found, obj.url.map Url.path = some dirKey) := by
  induction found with
  | nil =>
    refine ⟨true, ?_, by simp⟩
    unfold listEnd
    split
    · rfl
    · rfl
  | cons obj found ih =>
    obtain ⟨b, hb, hiff⟩ := ih (fun o ho => herr o (List.mem_cons_of_mem obj ho))
      fun o ho => hurl o (List.mem_cons_of_mem obj ho)
    obtain ⟨v, hv⟩ := Option.ne_none_iff_exists'.mp (hurl obj List.mem_cons_self)
    rw [List.cons_append, Vfs.dirIsEmptyLoop]
    simp only [herr obj List.mem_cons_self, hv]
    by_cases hpath : v.path = dirKey
    · rw [if_neg (not_not.mpr hpath)]
      refine ⟨b, hb, hiff.trans ?_⟩
      rw [List.forall_mem_cons, hv, Option.map_some, hpath]
      simp
    · rw [if_pos hpath]
      refine ⟨false, rfl, ?_⟩
      rw [List.forall_mem_cons, hv, Option.map_some]
      simp [hpath]

/-- A directory is empty when no key but its own marker is in it. -/
theorem HonestList.dirIsEmpty (h : HonestList s.bucket (cfg.url dirKey) list) :
    ∃ b, Vfs.dirIsEmpty cfg list dirKey s = (.ok b, s) ∧
      (b = true ↔ ∀ key, cfg.Lists s.bucket dirKey key → key = dirKey) := by
  have hu := isDirUrl_url cfg dirKey
  obtain ⟨found, hsent⟩ := h.sent rfl
  obtain ⟨objs, hobjs, hmem⟩ := hsent.mem_iff hu cfg
  have hall : (∀ obj ∈ found, obj.url.map Url.path = some dirKey) ↔
      ∀ key, cfg.Lists s.bucket dirKey key → key = dirKey := by
    constructor
    · rintro hmark key ⟨hkey, htakes⟩
      obtain ⟨o, ho, rfl⟩ := (hobjs.mem key).mpr hkey
      obtain ⟨it, hit⟩ := hu.exists_item htakes
      have hpath := hmark _ ((hmem _).mpr ⟨o, ho, htakes, it, hit, rfl⟩)
      rw [toObject_path] at hpath
      exact (hu.item_name_eq_iff hit).mp (Option.some.inj hpath)
    · intro hmark obj hobj
      obtain ⟨o, ho, htakes, it, hit, rfl⟩ := (hmem obj).mp hobj
      have hkey := hmark o.key ⟨(hobjs.mem o.key).mp ⟨o, ho, rfl⟩, htakes⟩
      rw [toObject_path, (hu.item_name_eq_iff hit).mpr hkey]
  have hurl : ∀ obj ∈ found, obj.url ≠ none := by
    intro obj hobj
    obtain ⟨o, -, -, it, -, rfl⟩ := (hmem obj).mp hobj
    intro hnone
    have hpath := toObject_path (cfg.url dirKey) it
    rw [hnone] at hpath
    cases hpath
  obtain ⟨b, hb, hiff⟩ : ∃ b, Vfs.dirIsEmptyLoop dirKey
      (found ++ listEnd (cfg.url dirKey) (!found.isEmpty)) s = (.ok b, s) ∧
        (b = true ↔ ∀ obj ∈ found, obj.url.map Url.path = some dirKey) :=
    dirIsEmptyLoop_listEnd hsent.err hurl _ _
  rw [← hsent.list_eq] at hb
  refine ⟨b, ?_, hiff.trans hall⟩
  unfold Vfs.dirIsEmpty
  rw [cfg.objUrl_eq, ofExcept_ok_bind]
  exact hb

/-- The recursive listing gives the keys of the directory. -/
theorem HonestList.listedKeys (h : HonestList s.bucket (cfg.treeUrl dirKey) list) :
    ∃ keys, Vfs.listedKeys list s = (.ok keys, s) ∧
      ∀ key, key ∈ keys ↔ cfg.Lists s.bucket dirKey key := by
  have hu := isDirUrl_treeUrl cfg dirKey
  obtain ⟨found, hsent⟩ := h.sent rfl
  obtain ⟨objs, hobjs, hmem⟩ := hsent.mem_iff hu cfg
  have hrun : Vfs.listedKeys list s = (.ok (listedPaths found), s) := by
    rw [hsent.list_eq, listedKeys_append hsent.err, listedKeys_listEnd]
    exact congrArg (fun keys => (Except.ok keys, s)) (List.append_nil _)
  refine ⟨listedPaths found, hrun, fun key => ?_⟩
  -- without a delimiter every item is an object
  have hobject : ∀ {o : StoredObject} {it : ListItem},
      (listV2Request (cfg.treeUrl dirKey)).itemOf o = some it → it = .object o := by
    intro o it hit
    rcases Rs5cmd.itemOf_cases hit with ⟨rfl, -⟩ | ⟨a, d, hd, -⟩
    · rfl
    · cases hd
  unfold listedPaths
  rw [List.mem_filterMap]
  constructor
  · rintro ⟨obj, hobj, hpath⟩
    obtain ⟨o, ho, htakes, it, hit, rfl⟩ := (hmem obj).mp hobj
    obtain rfl := hobject hit
    rw [toObject_path] at hpath
    obtain rfl := Option.some.inj hpath
    exact ⟨(hobjs.mem _).mp ⟨o, ho, rfl⟩, htakes⟩
  · rintro ⟨hkey, htakes⟩
    obtain ⟨o, ho, rfl⟩ := (hobjs.mem key).mpr hkey
    obtain ⟨it, hit⟩ := hu.exists_item htakes
    refine ⟨_, (hmem _).mpr ⟨o, ho, htakes, it, hit, rfl⟩, ?_⟩
    obtain rfl := hobject hit
    exact toObject_path _ _

end Answers

/-! ## Listings in a given order -/

section Order

variable {bucket : Str → Option Stored} {dirKey : Str} {objs : List StoredObject}

theorem Describes.perm {objs' : List StoredObject} (h : Describes objs bucket)
    (hperm : objs'.Perm objs) : Describes objs' bucket where
  nodup := (hperm.map StoredObject.key).nodup_iff.mpr h.nodup
  mem key := by
    rw [← h.mem key]
    exact exists_congr fun o => and_congr_left fun _ => hperm.mem_iff
  size o ho := h.size o (hperm.mem_iff.mp ho)

/-- A page without common prefixes sends its objects in their order. -/
theorem pageObjects_objects {u : Url} {enc : Str → Str} {items : List ListItem}
    (h : ∀ it ∈ items, ∃ o, it = .object o) :
    pageObjects u (pageOf enc items) = items.filterMap (ListItem.listed enc u) := by
  induction items with
  | nil => rfl
  | cons it items ih =>
    obtain ⟨o, rfl⟩ := h it List.mem_cons_self
    have ih := ih fun it hit => h it (List.mem_cons_of_mem _ hit)
    have hnone : items.filterMap (ListItem.encodedPrefix enc) = [] := by
      rw [List.filterMap_eq_nil_iff]
      intro it hit
      obtain ⟨o, rfl⟩ := h it (List.mem_cons_of_mem _ hit)
      rfl
    simp only [pageObjects, pageOf, List.filterMap_cons, ListItem.encodedPrefix,
      ListItem.encodedEntry, hnone, List.filterMap_nil, List.nil_append] at ih ⊢
    rw [ih]
    rfl

/-- A listing of the whole tree has its keys in the order of the server's objects. -/
theorem listedPaths_tree (cfg : VfsConfig) (dirKey : Str) {objs : List StoredObject}
    (hnodup : (objs.map StoredObject.key).Nodup) :
    listedPaths (pageObjects (cfg.treeUrl dirKey)
        (pageOf percentEncodeAll ((listV2Request (cfg.treeUrl dirKey)).items objs))) =
      (objs.filter fun o => (cfg.treeUrl dirKey).isMatch o.key).map StoredObject.key := by
  let u := cfg.treeUrl dirKey
  let req := listV2Request u
  have hobject : ∀ {o : StoredObject} {it : ListItem}, req.itemOf o = some it → it = .object o := by
    intro o it hit
    rcases Rs5cmd.itemOf_cases hit with ⟨rfl, -⟩ | ⟨a, d, hd, -⟩
    · rfl
    · cases hd
  have hitems : req.items objs = objs.filterMap req.itemOf := by
    refine List.dedup_eq_self.mpr ((List.Nodup.of_map _ hnodup).filterMap ?_)
    intro o o' it ho ho'
    exact ListItem.object.inj ((hobject ho).symm.trans (hobject ho'))
  have hobjects : ∀ it ∈ req.items objs, ∃ o, it = .object o := fun _ => exists_object_of_mem_items rfl
  -- what one object contributes
  have hone : ∀ o : StoredObject,
      ((req.itemOf o).bind fun it => (it.listed percentEncodeAll u).bind fun obj => obj.url.map Url.path) =
        if u.isMatch o.key then some o.key else none := by
    intro o
    by_cases hmatch : u.isMatch o.key = true
    · have htakes : cfg.Takes dirKey o.key := hmatch
      obtain ⟨it, hit⟩ := (isDirUrl_treeUrl cfg dirKey).exists_item htakes
      obtain rfl := hobject hit
      have hlisted : (ListItem.object o).listed percentEncodeAll u = some _ :=
        (listed_eq_some_iff (percentDecode_encodeAll o.key)).mpr ⟨hmatch, rfl⟩
      rw [if_pos hmatch, hit, Option.bind_some, hlisted, Option.bind_some, toObject_path]
      rfl
    · rw [if_neg hmatch]
      cases hit : req.itemOf o with
      | none => rfl
      | some it =>
        obtain rfl := hobject hit
        cases hlisted : (ListItem.object o).listed percentEncodeAll u with
        | none => rw [Option.bind_some, hlisted, Option.bind_none]
        | some obj =>
          exact absurd ((listed_eq_some_iff (percentDecode_encodeAll o.key)).mp hlisted).1 hmatch
  show listedPaths (pageObjects u (pageOf percentEncodeAll (req.items objs))) = _
  rw [pageObjects_objects hobjects, hitems, listedPaths, List.filterMap_filterMap,
    List.filterMap_filterMap]
  clear hnodup hitems hobjects
  induction objs with
  | nil => rfl
  | cons o objs ih =>
    rw [List.filterMap_cons, hone, List.filter_cons, ih]
    by_cases hmatch : u.isMatch o.key = true
    · rw [if_pos hmatch, if_pos hmatch]
      rfl
    · rw [if_neg hmatch, if_neg hmatch]

/-- The server may list the keys of the tree in any order. -/
theorem exists_tree_listing {cfg : VfsConfig} (hobjs : Describes objs bucket) {keys : List Str}
    (hkeys : keys.Perm
      ((objs.filter fun o => (cfg.treeUrl dirKey).isMatch o.key).map StoredObject.key)) :
    ∃ list, HonestList bucket (cfg.treeUrl dirKey) list ∧
      ∀ s, Vfs.listedKeys list s = (.ok keys, s) := by
  let matched := fun o : StoredObject => (cfg.treeUrl dirKey).isMatch o.key
  -- the objects under these keys, in their order
  obtain ⟨listed, hsame, hperm⟩ : ∃ listed : List StoredObject,
      listed.map StoredObject.key = keys ∧ listed.Perm (objs.filter matched) := by
    have hall : List.Forall₂ (fun (key : Str) (o : StoredObject) => o.key = key)
        ((objs.filter matched).map StoredObject.key) (objs.filter matched) := by
      rw [List.forall₂_map_left_iff, List.forall₂_same]
      exact fun _ _ => rfl
    obtain ⟨listed, hall, hperm⟩ := List.perm_comp_forall₂ hkeys hall
    refine ⟨listed, ?_, hperm⟩
    rw [← List.forall₂_eq_eq_eq, List.forall₂_map_left_iff]
    exact hall.flip
  let order := listed ++ objs.filter (fun o => !matched o)
  have horder : Describes order bucket :=
    hobjs.perm ((hperm.append_right _).trans (List.filter_append_perm matched objs))
  refine ⟨onePage percentEncodeAll order (cfg.treeUrl dirKey),
    honestList_onePage horder (keepsNames_encodeAll order) rfl, fun s => ?_⟩
  have hfilter : order.filter matched = listed := by
    have hrest : (objs.filter fun o => !matched o).filter matched = [] := by
      rw [List.filter_filter, List.filter_eq_nil_iff]
      intro o _
      simp
    have hlisted : listed.filter matched = listed := by
      rw [List.filter_eq_self]
      exact fun o ho => (List.mem_filter.mp (hperm.mem_iff.mp ho)).2
    rw [List.filter_append, hrest, hlisted, List.append_nil]
  have hpaths := listedPaths_tree cfg dirKey horder.nodup
  rw [hfilter, hsame] at hpaths
  have herr : ∀ obj ∈ pageObjects (cfg.treeUrl dirKey)
      (pageOf percentEncodeAll ((listV2Request (cfg.treeUrl dirKey)).items order)), obj.err = none :=
    fun _ => pageObjects_err
  rw [onePage, listV2, listV2Go, listedKeys_append herr, hpaths, listV2Go, listedKeys_listEnd]
  exact congrArg (fun ks => (Except.ok ks, s)) (List.append_nil keys)

end Order

/-! ## Buckets given by a list -/

/-- The bucket of these objects. -/
def bucketOf (l : List (Str × List UInt8)) (key : Str) : Option Stored :=
  (l.lookup key).map fun b => ⟨b, some 0⟩

/-- The objects of the bucket, in the order of the list. -/
def objectsOf (l : List (Str × List UInt8)) : List StoredObject :=
  l.map fun e => { key := e.1, size := e.2.length }

theorem describes_objectsOf {l : List (Str × List UInt8)} (h : (l.map Prod.fst).Nodup) :
    Describes (objectsOf l) (bucketOf l) where
  nodup := by
    rw [objectsOf, List.map_map]
    exact h
  mem key := by
    rw [bucketOf, ne_eq, Option.map_eq_none_iff, List.lookup_eq_none_iff, objectsOf]
    simp only [List.mem_map, exists_exists_and_eq_and, bne_iff_ne, ne_eq, not_forall, not_not]
    constructor
    · rintro ⟨e, he, rfl⟩
      exact ⟨e, he, rfl⟩
    · rintro ⟨e, he, rfl⟩
      exact ⟨e, he, rfl⟩
  size o ho st hst := by
    obtain ⟨e, he, rfl⟩ := List.mem_map.mp ho
    obtain ⟨b, hb, rfl⟩ := Option.map_eq_some_iff.mp hst
    obtain ⟨l₁, l₂, hsplit, -⟩ := List.lookup_eq_some_iff.mp hb
    have hmem : (e.1, b) ∈ l := by
      rw [hsplit]
      exact List.mem_append_right l₁ List.mem_cons_self
    -- one object under each key
    have hsame : e = (e.1, b) := List.inj_on_of_nodup_map h he hmem rfl
    exact congrArg (fun e : Str × List UInt8 => (e.2.length : Int)) hsame

end Rs5cmd
