import Rs5cmd.Theorems.ListV1

/-!
# Where a listing starts

A URL can ask for its listing to start after a key. `list_v2` passes the key on as
`StartAfter`. `list_objects_v1` has the marker for it, which it only ever sets to go
on to the next page, so it lists from the beginning.
-/

namespace Rs5cmd

/-- The objects whose keys sort strictly after a key. -/
def keysAfter (start : Str) (objs : List StoredObject) : List StoredObject :=
  objs.filter fun o => decide (start < o.key)

/-- A conforming ListObjectsV2 asked to start after a key: it lists as if the bucket
had only the keys after it. -/
def AnswersStartAfter (enc : Str → Str) (objs : List StoredObject)
    (pages : ListRequest → List (Except StorageError Page)) : Prop :=
  ∀ (req : ListRequest) (start : Str), req.startAfter = some start →
    ∃ ps, pages req = ps.map .ok ∧ PagesOf enc (req.items (keysAfter start objs)) ps

/-- What a lister sends besides errors. -/
def entriesOf (stream : List Object) : List Object := stream.filter fun obj => obj.err.isNone

/-- The entries of the listing of `src`, restricted to the keys after the one it
starts after. -/
def entriesAfter (enc : Str → Str) (objs : List StoredObject) (src : Url) : List Object :=
  ((listV2Request src).items (keysAfter src.startAfter objs)).filterMap (ListItem.listed enc src)

/-- Both listers start after the key. -/
structure HonoursStartAfter (enc : Str → Str) (objs : List StoredObject) (s3 : S3) (src : Url) :
    Prop where
  v1 : ∀ fuel, ((listV2Request src).items objs).length < fuel →
    (entriesOf (listObjectsV1 s3.listV1 src fuel)).Perm (entriesAfter enc objs src)
  v2 : (entriesOf (listV2 src (s3.listPages (listV2Request src)))).Perm (entriesAfter enc objs src)

/-- Starting after the key leaves nothing out: an item that the URL accepts and that
has a key at or before it also has one after it. -/
def NothingBefore (objs : List StoredObject) (src : Url) : Prop :=
  ∀ o ∈ objs, ¬ src.startAfter < o.key → ∀ it, (listV2Request src).itemOf o = some it →
    src.isMatch it.name = true →
      ∃ o' ∈ objs, src.startAfter < o'.key ∧ (listV2Request src).itemOf o' = some it

section Entries

variable {enc : Str → Str} {objs : List StoredObject} {src : Url}

/-- The entries of a listing that ended well are those of its pages. -/
theorem entriesOf_listV2Go (found : Bool) (pages : List Page) :
    entriesOf (listV2Go src found (pages.map .ok)) = pages.flatMap (pageObjects src) := by
  have hpages : ∀ obj ∈ pages.flatMap (pageObjects src), obj.err.isNone = true := by
    intro obj hobj
    obtain ⟨page, -, hpage⟩ := List.mem_flatMap.mp hobj
    rw [pageObjects_err hpage]
    rfl
  have hend : ∀ found, entriesOf (listEnd src found) = [] := by
    intro found
    unfold listEnd
    split <;> rfl
  rw [listV2Go_ok, entriesOf, List.filter_append, List.filter_eq_self.mpr hpages]
  exact (congrArg _ (hend _)).trans (List.append_nil _)

theorem mem_keysAfter {start : Str} {o : StoredObject} :
    o ∈ keysAfter start objs ↔ o ∈ objs ∧ start < o.key := by
  rw [keysAfter, List.mem_filter, decide_eq_true_iff]

/-- An item is sent just when the URL accepts its name. -/
theorem isSome_listed {it : ListItem} (hdec : percentDecode (enc it.name) = it.name) :
    (it.listed enc src).isSome = src.isMatch it.name := by
  have hlisted : (src.listed (enc it.name)).isSome = src.isMatch it.name := by
    rw [Url.listed, hdec, Option.isSome_map]
    unfold Url.matches?
    cases src.isMatch it.name <;> rfl
  cases it with
  | commonPrefix p =>
    show ((src.listed (enc p)).map _).isSome = _
    rw [Option.isSome_map]
    exact hlisted
  | object o =>
    show ((src.listed (enc o.key)).map _).isSome = _
    rw [Option.isSome_map]
    exact hlisted

/-- Listing all keys comes to the same as listing those after the key just when
nothing is left out. -/
theorem listed_perm_iff (hkeys : (objs.map StoredObject.key).Nodup)
    (hdec : ∀ it ∈ (listV2Request src).items objs, percentDecode (enc it.name) = it.name) :
    (((listV2Request src).items objs).filterMap (ListItem.listed enc src)).Perm
      (entriesAfter enc objs src) ↔ NothingBefore objs src := by
  have hsub : ∀ it ∈ (listV2Request src).items (keysAfter src.startAfter objs),
      it ∈ (listV2Request src).items objs := by
    intro it hit
    obtain ⟨o, ho, hito⟩ := mem_items.mp hit
    exact mem_items.mpr ⟨o, (mem_keysAfter.mp ho).1, hito⟩
  constructor
  · intro hperm o ho _ it hit hmatch
    have hmem : it ∈ (listV2Request src).items objs := mem_items.mpr ⟨o, ho, hit⟩
    obtain ⟨obj, hobj⟩ := Option.isSome_iff_exists.mp ((isSome_listed (hdec it hmem)).trans hmatch)
    -- what is sent for the item is sent by the restricted listing too, for the same name
    have hin : obj ∈ entriesAfter enc objs src :=
      hperm.mem_iff.mp (List.mem_filterMap.mpr ⟨it, hmem, hobj⟩)
    obtain ⟨it', hit', hobj'⟩ := List.mem_filterMap.mp hin
    have hname : it'.name = it.name := by
      have h := (listed_path (hdec it hmem) hobj).1
      have h' := (listed_path (hdec it' (hsub it' hit')) hobj').1
      exact Option.some.inj (h'.symm.trans h)
    obtain rfl : it' = it :=
      List.inj_on_of_nodup_map (nodup_names hkeys) (hsub it' hit') hmem hname
    obtain ⟨o', ho', hito'⟩ := mem_items.mp hit'
    exact ⟨o', (mem_keysAfter.mp ho').1, (mem_keysAfter.mp ho').2, hito'⟩
  · intro hnothing
    -- the items that are sent are the same
    have hitems : (((listV2Request src).items objs).filter fun it => src.isMatch it.name).Perm
        (((listV2Request src).items (keysAfter src.startAfter objs)).filter
          fun it => src.isMatch it.name) := by
      refine (List.perm_ext_iff_of_nodup ((List.nodup_dedup _).filter _)
        ((List.nodup_dedup _).filter _)).mpr fun it => ?_
      rw [List.mem_filter, List.mem_filter]
      refine and_congr_left fun hmatch => ⟨fun hit => ?_, hsub it⟩
      obtain ⟨o, ho, hito⟩ := mem_items.mp hit
      by_cases hafter : src.startAfter < o.key
      · exact mem_items.mpr ⟨o, mem_keysAfter.mpr ⟨ho, hafter⟩, hito⟩
      · obtain ⟨o', ho', hafter', hito'⟩ := hnothing o ho hafter it hito hmatch
        exact mem_items.mpr ⟨o', mem_keysAfter.mpr ⟨ho', hafter'⟩, hito'⟩
    have hsent : ∀ items : List ListItem, (∀ it ∈ items, it ∈ (listV2Request src).items objs) →
        items.filterMap (ListItem.listed enc src) =
          (items.filter fun it => src.isMatch it.name).filterMap (ListItem.listed enc src) := by
      intro items hitems
      rw [List.filterMap_filter]
      refine List.filterMap_congr fun it hit => ?_
      cases hmatch : src.isMatch it.name with
      | true => rfl
      | false =>
        have hnone := (isSome_listed (hdec it (hitems it hit))).trans hmatch
        rw [Option.isSome_eq_false_iff, Option.isNone_iff_eq_none] at hnone
        exact hnone
    rw [entriesAfter, hsent _ fun _ h => h, hsent _ hsub]
    exact hitems.filterMap _

end Entries

/-- **Starting after a key, exactly.** `list_v2` always starts after the key;
`list_objects_v1` sends the same entries iff nothing the URL accepts is left out by
starting there. -/
theorem start_after_honoured_iff (enc : Str → Str) (objs : List StoredObject)
    (hkeys : (objs.map StoredObject.key).Nodup) (s3 : S3) (hv1 : AnswersListV1 enc objs s3.listV1)
    (hv2 : AnswersStartAfter enc objs s3.listPages) (src : Url) (hstart : src.startAfter ≠ [])
    (hdec : ∀ it ∈ (listV2Request src).items objs, percentDecode (enc it.name) = it.name) :
    HonoursStartAfter enc objs s3 src ↔ NothingBefore objs src := by
  -- what each lister sends, however the server cuts its pages
  have hfirst : ∀ fuel, ((listV2Request src).items objs).length < fuel →
      (entriesOf (listObjectsV1 s3.listV1 src fuel)).Perm
        (((listV2Request src).items objs).filterMap (ListItem.listed enc src)) := by
    intro fuel hfuel
    obtain ⟨pages, hanswers, hpages, hlen⟩ := exists_v1Answers hv1 hdec []
      ((listV2Request src).items objs) rfl
    have hfuel' : (pages.map (Except.ok (ε := StorageError))).length ≤ fuel := by
      rw [List.length_map]
      omega
    have hrun : listObjectsV1 s3.listV1 src fuel = listV2Go src false (pages.map .ok) :=
      listObjectsV1Go_of_answers hanswers hfuel' false
    rw [hrun, entriesOf_listV2Go]
    exact flatMap_pageObjects_perm hpages
  have hsecond : (entriesOf (listV2 src (s3.listPages (listV2Request src)))).Perm
      (entriesAfter enc objs src) := by
    have hreq : (listV2Request src).startAfter = some src.startAfter := by
      show nonEmpty src.startAfter = _
      rw [nonEmpty, if_neg hstart]
    obtain ⟨pages, hlist, hpages⟩ := hv2 (listV2Request src) src.startAfter hreq
    rw [hlist, listV2, entriesOf_listV2Go]
    exact flatMap_pageObjects_perm hpages
  rw [← listed_perm_iff hkeys hdec]
  constructor
  · intro h
    have hfuel := Nat.lt_succ_self ((listV2Request src).items objs).length
    exact (hfirst _ hfuel).symm.trans (h.v1 _ hfuel)
  · intro h
    exact ⟨fun fuel hfuel => (hfirst fuel hfuel).trans h, hsecond⟩

/-! ## A conforming server -/

/-- ListObjectsV2 with one page, starting after a key or not. -/
def serveStartAfter (enc : Str → Str) (objs : List StoredObject) (req : ListRequest) :
    List (Except StorageError Page) :=
  serveListV2 enc (req.startAfter.elim objs fun start => keysAfter start objs) req

theorem answersStartAfter_serve (enc : Str → Str) (objs : List StoredObject) :
    AnswersStartAfter enc objs (serveStartAfter enc objs) := by
  intro req start hstart
  rw [serveStartAfter, hstart]
  exact ⟨[_], rfl, [req.items (keysAfter start objs)], by simp, .cons ⟨rfl, rfl⟩ .nil⟩

namespace StartAfterSample

def objs (keys : List String) : List StoredObject :=
  keys.map fun k => { key := k.toList, size := 3 }

/-- A client whose server sends one item a page through ListObjects. -/
def s3 (keys : List String) : S3 where
  useListObjectsV1 := true
  listPages := serveStartAfter urlEncode (objs keys)
  listV1 := serveListV1 urlEncode (objs keys) 1
  listVersions _ := .error .noObjectFound
  headObject _ _ _ := .ok none
  fuel := 4

/-- `ls --start-after d/a s3://b/d`. -/
def src : Url := { Url.ofString "s3://b/d" with startAfter := "d/a".toList }

/-- The common prefix `d/` has a key on either side of the start. -/
theorem start_after_honoured_straddling :
    HonoursStartAfter urlEncode (objs ["d/a", "d/b"]) (s3 ["d/a", "d/b"]) src := by
  refine (start_after_honoured_iff urlEncode (objs ["d/a", "d/b"]) (by decide +kernel)
    (s3 ["d/a", "d/b"]) (answersListV1_serve urlEncode (by decide +kernel) (by decide))
    (answersStartAfter_serve urlEncode _) src (by decide)
    fun _ hit => percentDecode_name (by decide +kernel) hit).mpr ?_
  intro o ho _ it hit _
  refine ⟨_, List.mem_cons_of_mem _ List.mem_cons_self, by decide +kernel, ?_⟩
  rcases List.mem_cons.mp ho with rfl | ho
  · rw [← hit]
    decide +kernel
  · obtain rfl := List.mem_singleton.mp ho
    exact hit

/-- Started after `d/a`, ListObjects still sends the object `d`. -/
theorem start_after_ignored :
    AnswersListV1 urlEncode (objs ["d", "d/b"]) (s3 ["d", "d/b"]).listV1 ∧
      AnswersStartAfter urlEncode (objs ["d", "d/b"]) (s3 ["d", "d/b"]).listPages ∧
      ¬ HonoursStartAfter urlEncode (objs ["d", "d/b"]) (s3 ["d", "d/b"]) src := by
  refine ⟨answersListV1_serve urlEncode (by decide +kernel) (by decide),
    answersStartAfter_serve urlEncode _, ?_⟩
  intro h
  have hlen := (h.v1 3 (by decide +kernel)).length_eq
  revert hlen
  decide +kernel

end StartAfterSample

end Rs5cmd
