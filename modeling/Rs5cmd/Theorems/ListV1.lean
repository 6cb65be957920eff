import Rs5cmd.Storage.S3.Paging

/-!
# The two listers send the same

`list_objects_v1` goes from page to page by a marker: the one the server tells, or
the last key of the page. Against a conforming server that marker always names the
last item of the page, so the loop goes through all items and ends.
-/

namespace Rs5cmd

section Loop

variable {enc : Str → Str} {objs : List StoredObject} {server : ListRequest → Except StorageError Page}
  {src : Url}

/-- The request of `list_objects_v1` with a marker. -/
def listV1Request (src : Url) (marker : Option Str) : ListRequest where
  bucket := src.bucket
  keyPrefix := src.keyPrefix
  delimiter := nonEmpty src.delimiter
  marker := marker

/-- The last key of a page of objects is the name of its last item. -/
theorem lastKey_of_objects {chunk : List ListItem} {page : Page} (h : page.Holds enc chunk)
    (hobj : ∀ it ∈ chunk, ∃ o, it = .object o) :
    lastKey page = chunk.getLast?.map fun it => percentDecode (enc it.name) := by
  have hkeys : page.contents.filterMap Entry.key = chunk.map fun it => enc it.name := by
    rw [h.contents, List.filterMap_filterMap]
    clear h
    induction chunk with
    | nil => rfl
    | cons it chunk ih =>
      obtain ⟨o, rfl⟩ := hobj it List.mem_cons_self
      rw [List.map_cons, ← ih fun it' hit' => hobj it' (List.mem_cons_of_mem _ hit')]
      rfl
  rw [lastKey, hkeys, List.getLast?_map, Option.map_map]
  rfl

/-- The marker that the loop goes on with names the last item of the page. -/
theorem nextMarker_of_truncated {chunk rest : List ListItem} {page : Page} {marker : Option Str}
    (hpage : page.Holds enc chunk) (hrest : rest ≠ [])
    (hnext : page.nextMarker = if rest.isEmpty || (listV1Request src marker).delimiter.isNone then none
      else chunk.getLast?.map fun it => enc it.name)
    (hobj : (listV1Request src marker).delimiter = none → ∀ it ∈ chunk, ∃ o, it = .object o)
    (hdec : ∀ it ∈ chunk, percentDecode (enc it.name) = it.name) :
    (page.nextMarker.map percentDecode).or (lastKey page) = chunk.getLast?.map ListItem.name ∨
      chunk = [] := by
  rcases List.eq_nil_or_concat' chunk with hnil | ⟨chunk', it, rfl⟩
  · exact Or.inr hnil
  · have hit := hdec it (by simp)
    have hempty : rest.isEmpty = false := by simpa using hrest
    left
    rw [hempty, Bool.false_or] at hnext
    cases hd : (listV1Request src marker).delimiter with
    | none =>
      rw [hd, Option.isNone_none, if_pos rfl] at hnext
      rw [hnext, Option.map_none, Option.none_or, lastKey_of_objects hpage (hobj hd)]
      simp [hit]
    | some d =>
      rw [hd, Option.isNone_some, if_neg Bool.false_ne_true] at hnext
      rw [hnext]
      simp [hit]

/-- **The marker loop goes through all items.** From the item after `before` on, its
requests are answered with pages of exactly the items that are left, and there is
at most one request for each of them. -/
theorem exists_v1Answers (hserver : AnswersListV1 enc objs server)
    (hdec : ∀ it ∈ (listV2Request src).items objs, percentDecode (enc it.name) = it.name)
    (before after : List ListItem) (hitems : (listV2Request src).items objs = before ++ after) :
    ∃ pages, V1Answers server src (before.getLast?.map ListItem.name) (pages.map .ok) ∧
      PagesOf enc after pages ∧ pages.length ≤ after.length + 1 := by
  obtain ⟨chunk, rest, page, hafter, hprogress, hget, hpage, htrunc, hnext⟩ :=
    hserver (listV1Request src (before.getLast?.map ListItem.name)) before after hitems rfl
  by_cases hrest : rest = []
  · -- the last page
    subst hrest
    rw [List.append_nil] at hafter
    subst hafter
    exact ⟨[page], .last hget htrunc, ⟨[after], by simp, .cons hpage .nil⟩, by simp⟩
  · have hchunk : chunk ≠ [] := hprogress (by rw [hafter]; simp [hrest])
    have hmem : ∀ it ∈ chunk, it ∈ (listV2Request src).items objs := by
      intro it hit
      rw [hitems, hafter]
      simp [hit]
    have hmarker := (nextMarker_of_truncated hpage hrest hnext
      (fun hd it hit => exists_object_of_mem_items hd (hmem it hit))
      (fun it hit => hdec it (hmem it hit))).resolve_right hchunk
    obtain ⟨it, hlast⟩ : ∃ it, chunk.getLast? = some it :=
      Option.isSome_iff_exists.mp (by simp [hchunk])
    -- what is left is shorter, since the page had an item
    have hlt : rest.length < after.length := by
      have := List.length_pos_iff.mpr hchunk
      rw [hafter, List.length_append]
      omega
    obtain ⟨pages, hanswers, ⟨chunks, hchunks, hholds⟩, hlen⟩ := exists_v1Answers hserver hdec
      (before ++ chunk) rest (by rw [hitems, hafter, List.append_assoc])
    have hbefore : (before ++ chunk).getLast? = some it := by
      rw [List.getLast?_append, hlast, Option.some_or]
    rw [hbefore] at hanswers
    rw [hlast] at hmarker
    refine ⟨page :: pages, .next hget ?_ hmarker hanswers, ⟨chunk :: chunks, ?_, .cons hpage hholds⟩, ?_⟩
    · rw [htrunc]
      simpa using hrest
    · rw [List.flatten_cons, hchunks, hafter]
    · rw [List.length_cons]
      omega
termination_by after.length

end Loop

/-- **ListObjects lists what ListObjectsV2 lists.** For every bucket, prefix,
delimiter and filter, and however a conforming server cuts its pages: after at most
one request for each item and one more, `list_objects_v1` has sent exactly the
entries that `list_v2` sends, each once, and then the same end. -/
theorem list_objects_v1_complete (enc : Str → Str) (objs : List StoredObject)
    (hkeys : (objs.map StoredObject.key).Nodup) (s3 : S3) (hv1 : AnswersListV1 enc objs s3.listV1)
    (hv2 : AnswersListV2 enc objs s3.listPages) (src : Url) (hstart : src.startAfter = [])
    (hdec : ∀ it ∈ (listV2Request src).items objs, percentDecode (enc it.name) = it.name) :
    ∃ es fs, es.Perm fs ∧ (es.map fun obj => obj.url.map Url.path).Nodup ∧
      (∀ obj ∈ es, obj.err = none) ∧
      (∀ fuel, ((listV2Request src).items objs).length < fuel →
        listObjectsV1 s3.listV1 src fuel = es ++ listEnd src (!es.isEmpty)) ∧
      listV2 src (s3.listPages (listV2Request src)) = fs ++ listEnd src (!es.isEmpty) := by
  obtain ⟨pages₁, hanswers, hpages₁, hlen⟩ := exists_v1Answers hv1 hdec []
    ((listV2Request src).items objs) rfl
  have hreq : (listV2Request src).startAfter = none := by
    show nonEmpty src.startAfter = none
    rw [hstart]
    rfl
  obtain ⟨pages₂, hlist, hpages₂⟩ := hv2 (listV2Request src) hreq
  have hperm₁ : (pages₁.flatMap (pageObjects src)).Perm _ := flatMap_pageObjects_perm hpages₁
  have hperm₂ : (pages₂.flatMap (pageObjects src)).Perm _ := flatMap_pageObjects_perm hpages₂
  have hperm := hperm₁.trans hperm₂.symm
  have hempty : (pages₂.flatMap (pageObjects src)).isEmpty =
      (pages₁.flatMap (pageObjects src)).isEmpty := by
    rw [Bool.eq_iff_iff, List.isEmpty_iff, List.isEmpty_iff]
    exact ⟨fun h => List.perm_nil.mp (h ▸ hperm), fun h => List.nil_perm.mp (h ▸ hperm)⟩
  refine ⟨pages₁.flatMap (pageObjects src), pages₂.flatMap (pageObjects src), hperm, ?_, ?_, ?_, ?_⟩
  · refine (hperm₁.map _).nodup_iff.mpr ((listed_paths_sublist hdec).nodup ?_)
    have hnames : (((listV2Request src).items objs).map ListItem.name).Nodup := nodup_names hkeys
    have hsome := hnames.map (f := some) fun _ _ => Option.some.inj
    rwa [List.map_map] at hsome
  · intro obj hobj
    obtain ⟨page, -, hpage⟩ := List.mem_flatMap.mp hobj
    exact pageObjects_err hpage
  · intro fuel hfuel
    have hfuel' : (pages₁.map (Except.ok (ε := StorageError))).length ≤ fuel := by
      rw [List.length_map]
      omega
    have hrun := listObjectsV1Go_of_answers hanswers hfuel' false
    rw [listV2Go_ok, Bool.false_or] at hrun
    exact hrun
  · rw [hlist, listV2, listV2Go_ok, Bool.false_or, hempty]

/-! ## A conforming server -/

/-- The items after the one that the marker names. -/
def resumeAfter (marker : Option Str) (items : List ListItem) : List ListItem :=
  match marker with
  | none => items
  | some m => (items.dropWhile fun it => it.name ≠ m).drop 1

/-- ListObjects with pages of `size` items. -/
def serveListV1 (enc : Str → Str) (objs : List StoredObject) (size : Nat) (req : ListRequest) :
    Except StorageError Page :=
  let after := resumeAfter req.marker (req.items objs)
  .ok
    { commonPrefixes := (after.take size).filterMap (ListItem.encodedPrefix enc)
      contents := (after.take size).filterMap (ListItem.encodedEntry enc)
      isTruncated := some !(after.drop size).isEmpty
      nextMarker := if (after.drop size).isEmpty || req.delimiter.isNone then none
        else (after.take size).getLast?.map fun it => enc it.name }

/-- ListObjectsV2 with one page. -/
def serveListV2 (enc : Str → Str) (objs : List StoredObject) (req : ListRequest) :
    List (Except StorageError Page) :=
  [.ok
    { commonPrefixes := (req.items objs).filterMap (ListItem.encodedPrefix enc)
      contents := (req.items objs).filterMap (ListItem.encodedEntry enc) }]

theorem resumeAfter_append {before after : List ListItem}
    (hnodup : ((before ++ after).map ListItem.name).Nodup) :
    resumeAfter (before.getLast?.map ListItem.name) (before ++ after) = after := by
  rcases List.eq_nil_or_concat' before with rfl | ⟨init, last, rfl⟩
  · rfl
  · have hinit : ∀ it ∈ init, it.name ≠ last.name := by
      intro it hit heq
      rw [List.append_assoc, List.map_append] at hnodup
      refine (List.nodup_append.mp hnodup).2.2 it.name (List.mem_map_of_mem hit) last.name ?_ heq
      simp
    have hdrop : (init ++ (last :: after)).dropWhile (fun it => decide (it.name ≠ last.name)) =
        last :: after := by
      rw [List.dropWhile_append_of_pos fun it hit => decide_eq_true (hinit it hit)]
      exact List.dropWhile_cons_of_neg (by simp)
    rw [List.getLast?_concat, Option.map_some, List.append_assoc, resumeAfter,
      List.singleton_append, hdrop, List.drop_one, List.tail_cons]

theorem answersListV1_serve (enc : Str → Str) {objs : List StoredObject}
    (hkeys : (objs.map StoredObject.key).Nodup) {size : Nat} (hsize : 0 < size) :
    AnswersListV1 enc objs (serveListV1 enc objs size) := by
  intro req before after hitems hmarker
  have hresume : resumeAfter req.marker (req.items objs) = after := by
    rw [hmarker, hitems]
    exact resumeAfter_append (hitems ▸ nodup_names hkeys)
  refine ⟨after.take size, after.drop size, _, (List.take_append_drop size after).symm, ?_, rfl, ?_,
    ?_, ?_⟩
  · intro hne hnil
    rcases List.take_eq_nil_iff.mp hnil with h | h
    · omega
    · exact hne h
  · exact ⟨by rw [hresume], by rw [hresume]⟩
  · rw [hresume, Option.getD_some]
  · rw [hresume]

theorem answersListV2_serve (enc : Str → Str) (objs : List StoredObject) :
    AnswersListV2 enc objs (serveListV2 enc objs) := by
  intro req _
  exact ⟨[_], rfl, [req.items objs], by simp, .cons ⟨rfl, rfl⟩ .nil⟩

namespace ListV1Sample

/-- Two of the objects under `d/` share the common prefix `d/b/`. -/
def objs : List StoredObject :=
  ["d/a", "d/b/x", "d/b/y", "d/c", "e"].map fun k => { key := k.toList, size := 3 }

/-- A client whose server sends one item a page through ListObjects. -/
def s3 : S3 where
  useListObjectsV1 := true
  listPages := serveListV2 urlEncode objs
  listV1 := serveListV1 urlEncode objs 1
  listVersions _ := .error .noObjectFound
  headObject _ _ _ := .ok none
  fuel := 4

def src : Url := .ofString "s3://b/d/"

/-- Three pages of one item and one page of three. -/
theorem list_objects_v1_complete_sample :
    ∃ es fs, es.Perm fs ∧ es.length = 3 ∧ listObjectsV1 s3.listV1 src 4 = es ∧
      listV2 src (s3.listPages (listV2Request src)) = fs := by
  obtain ⟨es, fs, hperm, -, -, hv1, hv2⟩ := list_objects_v1_complete urlEncode objs
    (by decide +kernel) s3 (answersListV1_serve urlEncode (by decide +kernel) (by decide))
    (answersListV2_serve urlEncode objs) src (by decide +kernel)
    fun _ hit => percentDecode_name (by decide +kernel) hit
  have hrun := hv1 4 (by decide +kernel)
  have hlen : (listObjectsV1 s3.listV1 src 4).length = 3 := by decide +kernel
  -- something was found, so nothing follows it
  have hsome : es ≠ [] := by
    rintro rfl
    rw [hrun] at hlen
    exact absurd hlen (by decide +kernel)
  have hend : listEnd src (!es.isEmpty) = [] := by
    simp [listEnd, hsome]
  rw [hend, List.append_nil] at hrun hv2
  exact ⟨es, fs, hperm, hrun ▸ hlen, hrun, hv2⟩

end ListV1Sample

end Rs5cmd
