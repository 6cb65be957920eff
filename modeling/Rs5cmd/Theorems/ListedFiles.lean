import Rs5cmd.Command.Listings
import Rs5cmd.Theorems.ListV1

/-!
# What a command sees of a whole listing

A conforming service lists a bucket through either API, in pages of its own size. What a
command makes of the entries that are no directories is then what it makes of the objects
its source names, in some order.
-/

namespace Rs5cmd

/-- The service lists the bucket to its end, through the API that the client uses. -/
structure ServedWhole (enc : Str → Str) (objs : List StoredObject) (s3 : S3) (src : Url) : Prop where
  keys : (objs.map StoredObject.key).Nodup
  decodes : ∀ it ∈ (listV2Request src).items objs, percentDecode (enc it.name) = it.name
  answers : if s3.useListObjectsV1 then
      AnswersListV1 enc objs s3.listV1 ∧ ((listV2Request src).items objs).length < s3.fuel
    else AnswersListV2 enc objs s3.listPages

/-- The objects that a source names, as a listing describes them: those under its prefix
with no delimiter after it whose keys match. -/
def Url.namedObjects (src : Url) (objs : List StoredObject) : List Object :=
  objs.filterMap fun o =>
    if (listV2Request src).itemOf o = some (.object o) then
      (src.matches? o.key).map fun u =>
        { url := some { u with path := o.key }
          etag := trimQuotes o.etag
          modTime := some (fromSecs o.lastModified)
          typ := .file
          size := o.size
          storageClass := o.storageClass }
    else none

/-- The source is no whole bucket, and no object or common prefix under its prefix matches. -/
def Url.Missing (src : Url) (objs : List StoredObject) : Prop :=
  src.isBucket = false ∧ ∀ it ∈ (listV2Request src).items objs, src.matches? it.name = none

instance (src : Url) (objs : List StoredObject) : Decidable (src.Missing objs) :=
  inferInstanceAs (Decidable (_ ∧ _))

section Listing

variable {enc : Str → Str} {objs : List StoredObject} {s3 : S3} {src : Url} {obj : Object}

/-- **Either API lists the items of the bucket**, each once, and then the end. -/
theorem ServedWhole.list (h : ServedWhole enc objs s3 src) (hv : src.isVersioned = false)
    (hstart : src.startAfter = []) :
    ∃ es : List Object, es.Perm (((listV2Request src).items objs).filterMap (ListItem.listed enc src)) ∧
      (∀ obj ∈ es, obj.err = none) ∧ s3.list src = es ++ listEnd src (!es.isEmpty) := by
  have hserved : ∃ pages, PagesOf enc ((listV2Request src).items objs) pages ∧
      s3.Answers src (pages.map .ok) := by
    have hanswers := h.answers
    unfold S3.Answers
    cases hapi : s3.useListObjectsV1 with
    | true =>
      rw [hapi, if_pos rfl] at hanswers
      obtain ⟨pages, hv1, hpages, hlen⟩ := exists_v1Answers hanswers.1 h.decodes []
        ((listV2Request src).items objs) rfl
      refine ⟨pages, hpages, hv1, ?_⟩
      rw [List.length_map]
      omega
    | false =>
      rw [hapi, if_neg Bool.false_ne_true] at hanswers
      have hreq : (listV2Request src).startAfter = none := by
        show nonEmpty src.startAfter = none
        rw [hstart]
        rfl
      obtain ⟨pages, hlist, hpages⟩ := hanswers (listV2Request src) hreq
      exact ⟨pages, hpages, hlist⟩
  obtain ⟨pages, hpages, hanswers⟩ := hserved
  refine ⟨pages.flatMap (pageObjects src), flatMap_pageObjects_perm hpages, ?_, ?_⟩
  · intro obj hobj
    obtain ⟨page, -, hpage⟩ := List.mem_flatMap.mp hobj
    exact pageObjects_err hpage
  · rw [S3.list_of_answers hanswers hv]
    exact listV2Go_ok src false pages

/-- An item is listed if its name matches. -/
theorem listed_eq_none {it : ListItem} (hdec : percentDecode (enc it.name) = it.name) :
    it.listed enc src = none ↔ src.matches? it.name = none := by
  cases it with
  | commonPrefix p =>
    show ((src.listed (enc p)).map _ = none) ↔ _
    rw [Option.map_eq_none_iff, Url.listed, show percentDecode (enc p) = p from hdec,
      Option.map_eq_none_iff]
    rfl
  | object o =>
    show ((src.listed (enc o.key)).map _ = none) ↔ _
    rw [Option.map_eq_none_iff, Url.listed, show percentDecode (enc o.key) = o.key from hdec,
      Option.map_eq_none_iff]
    rfl

/-- A listing has no error, or is one for want of objects. -/
theorem ServedWhole.list_cases (h : ServedWhole enc objs s3 src) (hv : src.isVersioned = false)
    (hstart : src.startAfter = []) :
    ∃ es : List Object, es.Perm (((listV2Request src).items objs).filterMap (ListItem.listed enc src)) ∧
      (∀ obj ∈ es, obj.err = none) ∧
      (¬ src.Missing objs ∧ s3.list src = es ∨
        src.Missing objs ∧ es = [] ∧ s3.list src = [Object.withError .noObjectFound]) := by
  obtain ⟨es, hperm, herr, hlist⟩ := h.list hv hstart
  refine ⟨es, hperm, herr, ?_⟩
  have hnil : es = [] ↔ ∀ it ∈ (listV2Request src).items objs, src.matches? it.name = none := by
    rw [← List.length_eq_zero_iff, hperm.length_eq, List.length_eq_zero_iff, List.filterMap_eq_nil_iff]
    exact forall₂_congr fun it hit => listed_eq_none (h.decodes it hit)
  unfold listEnd at hlist
  split at hlist
  · rename_i hnone
    rw [Bool.not_not, Bool.and_eq_true, List.isEmpty_iff, Bool.not_eq_true'] at hnone
    rw [hnone.1] at hlist
    exact Or.inr ⟨⟨hnone.2, hnil.mp hnone.1⟩, hnone.1, hlist⟩
  · rename_i hsome
    rw [List.append_nil] at hlist
    refine Or.inl ⟨fun hmissing => hsome ?_, hlist⟩
    rw [hnil.mpr hmissing.2, hmissing.1]
    rfl

/-- The items that are objects. -/
def ListItem.object? : ListItem → Option StoredObject
  | .commonPrefix _ => none
  | .object o => some o

/-- An object of the bucket is an item just when the request does not roll it up. -/
theorem object?_items_perm (hkeys : (objs.map StoredObject.key).Nodup) (req : ListRequest) :
    ((req.items objs).filterMap ListItem.object?).Perm
      (objs.filter fun o => req.itemOf o = some (.object o)) := by
  have hnodup : objs.Nodup := hkeys.of_map
  apply (List.perm_ext_iff_of_nodup ?_ (hnodup.filter _)).mpr
  · intro o
    rw [List.mem_filterMap, List.mem_filter, decide_eq_true_eq]
    constructor
    · rintro ⟨it, hit, ho⟩
      obtain ⟨o', ho', hitem⟩ := mem_items.mp hit
      cases it with
      | commonPrefix p => cases ho
      | object o'' =>
        obtain rfl := Option.some.inj ho
        rcases itemOf_cases hitem with ⟨heq, -⟩ | ⟨a, d, -, heq⟩
        · obtain rfl := ListItem.object.inj heq
          exact ⟨ho', hitem⟩
        · cases heq
    · rintro ⟨ho, hitem⟩
      exact ⟨.object o, mem_items.mpr ⟨o, ho, hitem⟩, rfl⟩
  · apply (List.nodup_dedup _).filterMap
    intro it it' o hit hit'
    cases it with
    | commonPrefix p => cases hit
    | object a =>
      cases it' with
      | commonPrefix p => cases hit'
      | object b =>
        obtain rfl := Option.some.inj hit
        obtain rfl := Option.some.inj hit'
        rfl

/-- What is listed for an object. -/
theorem listed_object {o : StoredObject} (hdec : percentDecode (enc o.key) = o.key) :
    (ListItem.object o).listed enc src = (src.matches? o.key).map fun u =>
      { url := some { u with path := o.key }
        etag := trimQuotes o.etag
        modTime := some (fromSecs o.lastModified)
        typ := .file
        size := o.size
        storageClass := o.storageClass } := by
  show (src.listed (enc o.key)).map _ = _
  rw [Url.listed, hdec, Option.map_map]
  rfl

/-- The files among what is listed are what is listed for the objects. -/
theorem files_listed (items : List ListItem) :
    ((items.filterMap (ListItem.listed enc src)).filter fun obj => !obj.typ.isDir) =
      (items.filterMap ListItem.object?).filterMap fun o => (ListItem.object o).listed enc src := by
  induction items with
  | nil => rfl
  | cons it items ih =>
    cases it with
    | commonPrefix p =>
      rw [List.filterMap_cons_none (f := ListItem.object?) rfl, ← ih]
      cases hobj : (ListItem.commonPrefix p).listed enc src with
      | none => rw [List.filterMap_cons_none hobj]
      | some obj =>
        obtain ⟨u, -, rfl⟩ := Option.map_eq_some_iff.mp hobj
        rw [List.filterMap_cons_some hobj, List.filter_cons_of_neg]
        exact Bool.false_ne_true
    | object o =>
      rw [List.filterMap_cons_some (f := ListItem.object?) rfl]
      cases hobj : (ListItem.object o).listed enc src with
      | none =>
        rw [List.filterMap_cons_none hobj,
          List.filterMap_cons_none (f := fun o => (ListItem.object o).listed enc src) hobj, ih]
      | some obj =>
        have hfile : (!obj.typ.isDir) = true := by
          obtain ⟨u, -, rfl⟩ := Option.map_eq_some_iff.mp hobj
          rfl
        rw [List.filterMap_cons_some hobj, List.filter_cons, if_pos hfile, ih,
          List.filterMap_cons_some (f := fun o => (ListItem.object o).listed enc src) hobj]

/-- **The files of a whole listing** are the objects that the source names. -/
theorem files_perm_namedObjects (h : ServedWhole enc objs s3 src) {es : List Object}
    (hes : es.Perm (((listV2Request src).items objs).filterMap (ListItem.listed enc src))) :
    (es.filter fun obj => !obj.typ.isDir).Perm (src.namedObjects objs) := by
  have hperm := (hes.filter fun obj => !obj.typ.isDir).trans (List.Perm.of_eq (files_listed _))
  apply hperm.trans
  have hnamed : src.namedObjects objs = (objs.filter fun o =>
      (listV2Request src).itemOf o = some (.object o)).filterMap fun o =>
        (ListItem.object o).listed enc src := by
    rw [Url.namedObjects, List.filterMap_filter]
    apply List.filterMap_congr
    intro o ho
    by_cases hitem : (listV2Request src).itemOf o = some (.object o)
    · rw [if_pos hitem, if_pos (decide_eq_true hitem),
        listed_object (h.decodes _ (mem_items.mpr ⟨o, ho, hitem⟩))]
    · rw [if_neg hitem, if_neg (by simpa using hitem)]
  rw [hnamed]
  exact (object?_items_perm h.keys _).filterMap _

end Listing

end Rs5cmd
