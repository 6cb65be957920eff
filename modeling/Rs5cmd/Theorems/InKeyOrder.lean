import Rs5cmd.Theorems.ListedFiles

/-!
# `cat` and `select` go through the objects in key order

Whichever API lists them and wherever its pages are cut, the objects that a source names
come in the order of their keys. `cat` stops at the first one that it cannot read whole;
`select` goes on, and fails at the end.
-/

namespace Rs5cmd

section Sources

variable {enc : Str → Str} {objs : List StoredObject} {s3 : S3} {src u v : Url}
  {g : Object → Option Url}

/-- The URL of a named object is made from its key. -/
theorem Url.eq_of_mem_namedObjects (hu : u ∈ (src.namedObjects objs).filterMap Object.url) :
    ∃ o ∈ objs, u.path = o.key ∧
      (src.matches? o.key).map (fun w => { w with path := o.key }) = some u := by
  obtain ⟨obj, hobj, hurl⟩ := List.mem_filterMap.mp hu
  obtain ⟨o, ho, hnamed⟩ := List.mem_filterMap.mp hobj
  split at hnamed
  · obtain ⟨w, hw, rfl⟩ := Option.map_eq_some_iff.mp hnamed
    obtain rfl := Option.some.inj hurl
    refine ⟨o, ho, rfl, ?_⟩
    rw [hw]
    rfl
  · cases hnamed

theorem Url.eq_of_path_eq (hu : u ∈ (src.namedObjects objs).filterMap Object.url)
    (hv : v ∈ (src.namedObjects objs).filterMap Object.url) (hpath : u.path = v.path) : u = v := by
  obtain ⟨o, -, hkey, hmatch⟩ := Url.eq_of_mem_namedObjects hu
  obtain ⟨o', -, hkey', hmatch'⟩ := Url.eq_of_mem_namedObjects hv
  have heq : o.key = o'.key := by rw [← hkey, ← hkey', hpath]
  rw [heq] at hmatch
  exact Option.some.inj (hmatch.symm.trans hmatch')

/-- No URL is named twice. -/
theorem Url.nodup_namedObjects (hkeys : (objs.map StoredObject.key).Nodup) (src : Url) :
    ((src.namedObjects objs).filterMap Object.url).Nodup := by
  apply List.Nodup.of_map Url.path
  have hsub : (((src.namedObjects objs).filterMap Object.url).map Url.path).Sublist
      (objs.map StoredObject.key) := by
    clear hkeys
    induction objs with
    | nil => exact List.Sublist.slnil
    | cons o objs ih =>
      rw [Url.namedObjects, List.filterMap_cons, List.map_cons]
      split
      · exact ih.cons _
      · rename_i obj hobj
        split at hobj
        · obtain ⟨w, hw, rfl⟩ := Option.map_eq_some_iff.mp hobj
          exact ih.cons_cons _
        · cases hobj
  exact hsub.nodup hkeys

/-- What a command picks of the URLs of a listing, in its order. -/
structure InKeyOrder (src : Url) (objs : List StoredObject) (g : Object → Option Url)
    (srcs : List Url) : Prop where
  perm : srcs.Perm ((src.namedObjects objs).filterMap g)
  sorted : srcs.Pairwise fun a b => byKey a b = .lt

theorem path_eq_of_byKey (h : byKey u v = .eq) : u.path = v.path := by
  have hcompare : compare u.path v.path = .eq := h
  exact Std.LawfulEqCmp.eq_of_compare hcompare

/-- **Sorting puts the picked URLs in key order**, for a comparison that tells keys apart
first. -/
theorem inKeyOrder_sortBy (hkeys : (objs.map StoredObject.key).Nodup)
    (hg : ∀ obj x, g obj = some x → obj.url = some x) {cmp : Url → Url → Ordering}
    [Std.TransCmp cmp] (heq : ∀ a b, cmp a b = .eq → a.path = b.path)
    (hlt : ∀ a b, cmp a b = .lt → a.path ≠ b.path → byKey a b = .lt) {us : List Url}
    (hus : us.Perm ((src.namedObjects objs).filterMap g)) :
    InKeyOrder src objs g (Collect.sortBy cmp us) := by
  have hsub : ((src.namedObjects objs).filterMap g).Sublist
      ((src.namedObjects objs).filterMap Object.url) := by
    induction src.namedObjects objs with
    | nil => exact List.Sublist.slnil
    | cons obj rest ih =>
      rw [List.filterMap_cons, List.filterMap_cons]
      cases hobj : g obj with
      | some x =>
        rw [hg obj x hobj]
        exact ih.cons_cons x
      | none =>
        cases obj.url with
        | none => exact ih
        | some x => exact ih.cons x
  have hmem (a : Url) (ha : a ∈ us) : a ∈ (src.namedObjects objs).filterMap Object.url :=
    hsub.subset (hus.mem_iff.mp ha)
  have hinj : ∀ a ∈ us, ∀ b ∈ us, cmp a b = .eq → a = b := fun a ha b hb hab =>
    Url.eq_of_path_eq (hmem a ha) (hmem b hb) (heq a b hab)
  have hnodup : us.Nodup := hus.nodup_iff.mpr (hsub.nodup (Url.nodup_namedObjects hkeys src))
  refine ⟨(Collect.sortBy_perm cmp us).trans hus, ?_⟩
  apply (Collect.pairwise_lt_sortBy hnodup hinj).imp_of_mem
  intro a b ha hb hab
  apply hlt a b hab
  intro hpath
  obtain rfl : a = b := Url.eq_of_path_eq (hmem a (Collect.mem_sortBy.mp ha))
    (hmem b (Collect.mem_sortBy.mp hb)) hpath
  have hself : cmp a a = .eq := Std.ReflCmp.compare_self
  rw [hself] at hab
  cases hab

/-- The collected URLs are those that are picked of the files. -/
theorem foldl_collect {take : List Url → Object → List Url}
    (htake : ∀ us obj, take us obj = if obj.typ.isDir then us else us ++ (g obj).toList)
    (us : List Url) (es : List Object) :
    es.foldl take us = us ++ (es.filter fun obj => !obj.typ.isDir).filterMap g := by
  induction es generalizing us with
  | nil => exact (List.append_nil us).symm
  | cons obj es ih =>
    rw [List.foldl_cons, ih, htake, List.filter_cons]
    cases obj.typ.isDir with
    | true => rfl
    | false =>
      rw [if_neg Bool.false_ne_true, if_pos (show (!false) = true from rfl), List.append_assoc,
        List.filterMap_cons]
      cases g obj <;> rfl

/-- **What a command collects from a whole listing** and sorts are the URLs in key order
that it picks of the objects the source names, unless the listing ends in an error for want
of objects. -/
theorem exists_inKeyOrder (hserved : ServedWhole enc objs s3 src) (hv : src.isVersioned = false)
    (hstart : src.startAfter = []) (hg : ∀ obj x, g obj = some x → obj.url = some x)
    {take : List Url → Object → List Url}
    (htake : ∀ us obj, take us obj = if obj.typ.isDir then us else us ++ (g obj).toList)
    {cmp : Url → Url → Ordering} [Std.TransCmp cmp] (heq : ∀ a b, cmp a b = .eq → a.path = b.path)
    (hlt : ∀ a b, cmp a b = .lt → a.path ≠ b.path → byKey a b = .lt) :
    ∃ srcs, InKeyOrder src objs g srcs ∧
      ((∃ us, receive take [] (s3.list src) = (us, none) ∧ Collect.sortBy cmp us = srcs) ∨
        srcs = [] ∧ ∃ us e, receive take [] (s3.list src) = (us, some e)) := by
  obtain ⟨es, hperm, herr, hlist⟩ := hserved.list_cases hv hstart
  have hfiles := files_perm_namedObjects hserved hperm
  rcases hlist with ⟨-, hlist⟩ | ⟨-, rfl, hlist⟩
  · refine ⟨_, inKeyOrder_sortBy hserved.keys hg heq hlt (hfiles.filterMap g), .inl ⟨_, ?_, rfl⟩⟩
    rw [hlist, receive_ok herr, foldl_collect htake, List.nil_append]
  · refine ⟨[], ⟨?_, List.Pairwise.nil⟩, .inr ⟨rfl, [], .noObjectFound, ?_⟩⟩
    · rw [List.nil_perm.mp hfiles]
      exact List.Perm.nil
    · rw [hlist]
      rfl

/-- A source without options lists current versions from the start. -/
theorem Url.parse_plain {s : Str} {url : Url} (h : Url.parse s = .ok url) :
    url.isVersioned = false ∧ url.startAfter = [] := by
  rcases Url.new_eq_ok rfl h with ⟨-, rfl⟩ | ⟨rest, bucket, key, -, -, -, -, rfl⟩
  · exact ⟨rfl, rfl⟩
  · exact ⟨rfl, rfl⟩

end Sources

/-! ## cat -/

section Cat

variable {env : CatEnv} {enc : Str → Str} {objs : List StoredObject} {s3 : S3} {url : Url}

/-- What has arrived when an object cannot be read whole has been printed. -/
theorem CatEnv.concat_error {whole rest : List Url} {src : Url} {e : StorageError}
    (hwhole : ∀ u ∈ whole, (env.stream u).2 = none) (hfails : (env.stream src).2 = some e) :
    env.concat (whole ++ src :: rest) =
      (whole.flatMap (fun u => (env.stream u).1) ++ (env.stream src).1,
        .error (catFailure src e)) := by
  induction whole with
  | nil =>
    have hstream : env.stream src = ((env.stream src).1, some e) := Prod.ext rfl hfails
    rw [List.nil_append, CatEnv.concat, hstream]
    rfl
  | cons u whole ih =>
    have hstream : env.stream u = ((env.stream u).1, none) :=
      Prod.ext rfl (hwhole u List.mem_cons_self)
    rw [List.cons_append, CatEnv.concat, hstream]
    simp only
    rw [ih fun u' hu' => hwhole u' (List.mem_cons_of_mem u hu'), List.flatMap_cons, List.append_assoc]

theorem CatEnv.concat_ok {srcs : List Url} (hwhole : ∀ u ∈ srcs, (env.stream u).2 = none) :
    env.concat srcs = (srcs.flatMap fun u => (env.stream u).1, .ok ()) := by
  induction srcs with
  | nil => rfl
  | cons u srcs ih =>
    have hstream : env.stream u = ((env.stream u).1, none) :=
      Prod.ext rfl (hwhole u List.mem_cons_self)
    rw [CatEnv.concat, hstream]
    simp only
    rw [ih fun u' hu' => hwhole u' (List.mem_cons_of_mem u hu'), List.flatMap_cons]

/-- **`cat` prints the objects of a source in key order.** For a wildcard, a prefix or a
bucket, through either listing API and with pages of any size: the objects that the source
names are printed one after the other in the order of their keys, none twice. The first that
cannot be read whole ends the output with what arrived of it, and the command fails naming
it; without one it succeeds. If the source names nothing, nothing is printed and it fails. -/
theorem cat_in_key_order (env : CatEnv) (args : CatArgs) (url : Url)
    (hurl : Url.parse args.src = .ok url) (hversion : args.versionId = none)
    (hremote : url.isRemote = true) (hexpands : url.expands = true) (s3 : S3)
    (hs3 : env.backend.newS3 url = .ok s3) (enc : Str → Str) (objs : List StoredObject)
    (hserved : ServedWhole enc objs s3 url) :
    ∃ srcs, InKeyOrder url objs Object.url srcs ∧
      (srcs = [] → ∃ e, args.run env = ([], .error e)) ∧
      (∀ whole src rest e, srcs = whole ++ src :: rest → (∀ u ∈ whole, (env.stream u).2 = none) →
        (env.stream src).2 = some e →
        args.run env = (whole.flatMap (fun u => (env.stream u).1) ++ (env.stream src).1,
          .error (catFailure src e))) ∧
      (srcs ≠ [] → (∀ u ∈ srcs, (env.stream u).2 = none) →
        args.run env = (srcs.flatMap fun u => (env.stream u).1, .ok ())) := by
  obtain ⟨hv, hstart⟩ := Url.parse_plain hurl
  have hrun : args.run env = env.expanded s3 url := by
    unfold CatArgs.run
    rw [hversion, show Url.new args.src { versionId := none } = .ok url from hurl]
    simp only [hremote, hexpands, hs3, Bool.and_self, if_true, Option.isSome_none,
      Bool.false_eq_true, if_false]
  obtain ⟨srcs, horder, hreceive⟩ := @exists_inKeyOrder enc objs s3 url Object.url hserved hv hstart
    (fun _ _ h => h) catSource (fun _ _ => rfl) byKey _ (fun _ _ h => path_eq_of_byKey h)
    fun _ _ h _ => h
  refine ⟨srcs, horder, ?_⟩
  rw [hrun]
  unfold CatEnv.expanded
  rcases hreceive with ⟨us, hus, rfl⟩ | ⟨rfl, us, e, hus⟩
  · simp only [hus]
    by_cases hempty : us = []
    · rw [Collect.sortBy_eq_nil_iff.mpr hempty, hempty]
      refine ⟨fun _ => ⟨_, rfl⟩, fun whole src rest _ hsplit => ?_, fun hne => absurd rfl hne⟩
      exact absurd hsplit.symm (List.append_ne_nil_of_right_ne_nil whole (List.cons_ne_nil src rest))
    · rw [List.isEmpty_eq_false_iff.mpr hempty, if_neg Bool.false_ne_true]
      refine ⟨fun hnil => absurd (Collect.sortBy_eq_nil_iff.mp hnil) hempty,
        fun whole src rest e hsplit hwhole hfails => ?_, fun _ hwhole => CatEnv.concat_ok hwhole⟩
      rw [hsplit]
      exact CatEnv.concat_error hwhole hfails
  · simp only [hus]
    refine ⟨fun _ => ⟨e, rfl⟩, fun whole src rest _ hsplit => ?_, fun hne => absurd rfl hne⟩
    exact absurd hsplit.symm (List.append_ne_nil_of_right_ne_nil whole (List.cons_ne_nil src rest))

end Cat

namespace InKeyOrderSample

def objs : List StoredObject := ["x/b", "x/a", "y"].map fun k => { key := k.toList, size := 1 }

/-- A client whose service sends one object a page through ListObjects. -/
def s3 : S3 where
  useListObjectsV1 := true
  listPages := serveListV2 urlEncode objs
  listV1 := serveListV1 urlEncode objs 1
  listVersions _ := .error .noObjectFound
  headObject _ _ _ := .ok none
  fuel := 4

def backend : Backend where
  newS3 _ := .ok s3
  fs := .empty

/-- Each object holds its own key, in two chunks. -/
def env : CatEnv where
  backend := backend
  getObject _ key _ := .ok { chunks := [Utf8.encode (key.take 2), Utf8.encode (key.drop 2)] }
  readFile _ := .ok []

theorem servedWhole (src : Url) (h : ((listV2Request src).items objs).length < 4) :
    ServedWhole urlEncode objs s3 src where
  keys := by decide +kernel
  decodes := fun _ hit => percentDecode_name (by decide +kernel) hit
  answers := ⟨answersListV1_serve urlEncode (by decide +kernel) (by decide), h⟩

/-- `cat s3://b/x/*` prints two objects. -/
theorem cat_in_key_order_two : ∃ srcs : List Url, srcs.length = 2 ∧
    CatArgs.run env { src := "s3://b/x/*".toList } =
      (srcs.flatMap fun u => (env.stream u).1, .ok ()) := by
  obtain ⟨srcs, horder, -, -, hwhole⟩ := cat_in_key_order env { src := "s3://b/x/*".toList }
    (.ofString "s3://b/x/*") (by decide +kernel) rfl (by decide +kernel) (by decide +kernel) s3 rfl
    urlEncode objs (servedWhole _ (by decide +kernel))
  have hlen : srcs.length = 2 := horder.perm.length_eq.trans (by decide +kernel)
  refine ⟨srcs, hlen, hwhole ?_ fun _ _ => rfl⟩
  rintro rfl
  cases hlen

end InKeyOrderSample

/-! ## select -/

section Select

variable {env : SelectEnv} {query : Str} {enc : Str → Str} {objs : List StoredObject} {s3 : S3}

/-- The URL of an object that `select` queries: one in no archive whose relative path is not
excluded. -/
def selectable (exclude : List Regex) (obj : Object) : Option Url :=
  obj.url.bind fun u =>
    if isGlacier obj.storageClass || exclude.any (·.isMatch u.relative) then none else some u

theorem selectSource_eq (exclude : List Regex) (us : List Url) (obj : Object) :
    selectSource exclude us obj =
      if obj.typ.isDir then us else us ++ (selectable exclude obj).toList := by
  unfold selectSource selectable
  split
  · rfl
  · cases obj.url with
    | none => exact (List.append_nil us).symm
    | some u =>
      simp only [Option.bind_some]
      cases isGlacier obj.storageClass with
      | true => exact (List.append_nil us).symm
      | false =>
        cases exclude.any (·.isMatch u.relative) with
        | true => exact (List.append_nil us).symm
        | false => rfl

theorem url_of_selectable {exclude : List Regex} {obj : Object} {u : Url}
    (h : selectable exclude obj = some u) : obj.url = some u := by
  obtain ⟨v, hv, hu⟩ := Option.bind_eq_some_iff.mp h
  split at hu
  · cases hu
  · rw [hv, Option.some.inj hu]

/-- No query failed. -/
theorem SelectEnv.failed_isEmpty (env : SelectEnv) (query : Str) (srcs : List Url) :
    (env.queryAll query srcs).2.isEmpty = true ↔ ∀ u ∈ srcs, (env.select query u).2 = none := by
  rw [List.isEmpty_iff]
  show srcs.filter _ = [] ↔ _
  rw [List.filter_eq_nil_iff]
  apply forall₂_congr
  intro u _
  exact Option.not_isSome_iff_eq_none

/-- **`select` queries each object of a source once, in key order.** For a wildcard, a prefix
or a bucket, through either listing API and with pages of any size: the objects that the
source names are queried in the order of their keys, those in an archive or excluded left
out, and what each query brought is printed, also after another one has failed. The command
succeeds just when there was an object to query and no query failed. -/
theorem select_in_key_order (env : SelectEnv) (args : SelectArgs) (url : Url)
    (hurl : Url.parse args.src = .ok url) (hversion : args.versionId = none)
    (hall : args.allVersions = false) (hremote : url.isRemote = true)
    (hexpands : url.expands = true) (hquery : args.query ≠ []) (exclude : List Regex)
    (hexclude : compileGlobs args.excludes = .ok exclude) (s3 : S3)
    (hs3 : env.backend.newS3 url = .ok s3) (enc : Str → Str) (objs : List StoredObject)
    (hserved : ServedWhole enc objs s3 url) :
    ∃ srcs, InKeyOrder url objs (selectable exclude) srcs ∧
      (args.run env).1 = srcs.flatMap (fun u => (env.select args.query u).1) ∧
      ((args.run env).2 = .ok () ↔ srcs ≠ [] ∧ ∀ u ∈ srcs, (env.select args.query u).2 = none) := by
  obtain ⟨hv, hstart⟩ := Url.parse_plain hurl
  have hrun : args.run env = env.expanded args.query exclude s3 url := by
    unfold SelectArgs.run
    rw [hversion, hall,
      show Url.new args.src { allVersions := false, versionId := none } = .ok url from hurl]
    simp only [hremote, hexpands, hs3, hexclude, List.isEmpty_eq_false_iff.mpr hquery, Bool.not_true,
      Bool.false_eq_true, if_false]
  have hcmp (a b : Url) : byVersion a b = (byKey a b).then (compareOn Url.versionId a b) := rfl
  obtain ⟨srcs, horder, hreceive⟩ := @exists_inKeyOrder enc objs s3 url (selectable exclude) hserved hv
    hstart (fun _ _ h => url_of_selectable h) (selectSource exclude) (selectSource_eq exclude)
    byVersion _ (fun a b h => by
      rw [hcmp, Ordering.then_eq_eq] at h
      exact path_eq_of_byKey h.1)
    (fun a b h hne => by
      rw [hcmp, Ordering.then_eq_lt] at h
      rcases h with h | ⟨h, -⟩
      · exact h
      · exact absurd (path_eq_of_byKey h) hne)
  refine ⟨srcs, horder, ?_⟩
  rw [hrun]
  unfold SelectEnv.expanded
  rcases hreceive with ⟨us, hus, rfl⟩ | ⟨rfl, us, e, hus⟩
  · simp only [hus]
    by_cases hempty : us = []
    · rw [Collect.sortBy_eq_nil_iff.mpr hempty, hempty]
      refine ⟨rfl, fun h => ?_, fun h => absurd rfl h.1⟩
      cases h
    · rw [List.isEmpty_eq_false_iff.mpr hempty, if_neg Bool.false_ne_true]
      refine ⟨rfl, ?_⟩
      have hne : Collect.sortBy byVersion us ≠ [] := fun h =>
        hempty (Collect.sortBy_eq_nil_iff.mp h)
      rw [← SelectEnv.failed_isEmpty, and_iff_right hne]
      cases (env.queryAll args.query (Collect.sortBy byVersion us)).2.isEmpty with
      | true => exact ⟨fun _ => rfl, fun _ => rfl⟩
      | false => exact ⟨fun h => (by cases h), fun h => (by cases h)⟩
  · simp only [hus]
    refine ⟨rfl, fun h => ?_, fun h => absurd rfl h.1⟩
    cases h

end Select

namespace InKeyOrderSample

/-- The query of one object is answered, that of the other one refused. -/
def selectEnv : SelectEnv where
  backend := backend
  selectObjectContent _ _ key :=
    if key = "x/a".toList then .error (.msg "denied".toList)
    else .ok { events := [.records (some [1]), .other, .fin] }

/-- `select s3://b/x/*` prints what one query brings, and fails for the other one. -/
theorem select_in_key_order_refused : ∃ srcs : List Url, srcs.length = 2 ∧
    (SelectArgs.run selectEnv { src := "s3://b/x/*".toList, query := "q".toList }).1 =
      srcs.flatMap fun u => (selectEnv.select "q".toList u).1 := by
  obtain ⟨srcs, horder, hout, -⟩ := select_in_key_order selectEnv
    { src := "s3://b/x/*".toList, query := "q".toList } (.ofString "s3://b/x/*") (by decide +kernel)
    rfl rfl (by decide +kernel) (by decide +kernel) (by decide +kernel) [] rfl s3 rfl urlEncode
    objs (servedWhole _ (by decide +kernel))
  exact ⟨srcs, horder.perm.length_eq.trans (by decide +kernel), hout⟩

end InKeyOrderSample

end Rs5cmd
