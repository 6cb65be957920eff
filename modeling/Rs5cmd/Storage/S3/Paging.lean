import Rs5cmd.Storage.S3.Server
import Mathlib.Data.List.Dedup
import Mathlib.Data.List.Nodup

/-!
# Pages of a listing

A listing of a bucket is a list of items: the objects under the prefix whose keys
have no delimiter after it, and one common prefix for all the others that share it.
A server sends it in pages, cut where it likes as long as a page makes progress.
ListObjects resumes right after the item that the marker names, and tells the next
marker only when there is a delimiter.
-/

namespace Rs5cmd

/-! ## Items -/

/-- An item of a listing. -/
inductive ListItem where
  | commonPrefix (p : Str)
  | object (o : StoredObject)
  deriving DecidableEq, Repr

namespace ListItem

/-- What a marker calls the item. -/
def name : ListItem → Str
  | .commonPrefix p => p
  | .object o => o.key

/-- The item in the common prefixes of a page. -/
def encodedPrefix (enc : Str → Str) : ListItem → Option (Option Str)
  | .commonPrefix p => some (some (enc p))
  | .object _ => none

/-- The item in the contents of a page. -/
def encodedEntry (enc : Str → Str) : ListItem → Option Entry
  | .commonPrefix _ => none
  | .object o => some (o.entry enc)

/-- What a lister sends for the item. -/
def listed (enc : Str → Str) (src : Url) : ListItem → Option Object
  | .commonPrefix p => commonPrefixObject src (some (enc p))
  | .object o => contentObject src (o.entry enc)

end ListItem

/-- The item that an object of the bucket is listed under. -/
def ListRequest.itemOf (req : ListRequest) (o : StoredObject) : Option ListItem :=
  (Str.stripPrefix req.keyPrefix o.key).map fun rest =>
    match req.delimiter.bind fun d => (Str.splitOnce d rest).map fun ab => ab.1 ++ d with
    | some cut => .commonPrefix (req.keyPrefix ++ cut)
    | none => .object o

/-- The items of a listing, for the objects in the order in which they are listed. -/
def ListRequest.items (req : ListRequest) (objs : List StoredObject) : List ListItem :=
  (objs.filterMap req.itemOf).dedup

section Items

variable {req : ListRequest} {objs : List StoredObject} {it : ListItem}

theorem Str.not_infix_of_splitOnce {pat s : Str} (h : Str.splitOnce pat s = none) :
    ¬ pat <:+: s := by
  induction s with
  | nil =>
    intro hin
    rw [Str.splitOnce, if_pos (List.infix_nil.mp hin)] at h
    cases h
  | cons x s ih =>
    rw [Str.splitOnce] at h
    split at h
    · cases h
    · rename_i hpre
      intro hin
      rcases List.infix_cons_iff.mp hin with hin | hin
      · exact hpre hin
      · exact ih (Option.map_eq_none_iff.mp h) hin

/-- An item is an object of the bucket without a delimiter after the prefix, or
ends with its first delimiter there. -/
theorem itemOf_cases {o : StoredObject} (h : req.itemOf o = some it) :
    (it = .object o ∧ ∃ rest, o.key = req.keyPrefix ++ rest ∧
      ∀ d, req.delimiter = some d → ¬ d <:+: rest) ∨
    ∃ a d, req.delimiter = some d ∧ it = .commonPrefix (req.keyPrefix ++ (a ++ d)) := by
  obtain ⟨rest, hrest, hit⟩ := Option.map_eq_some_iff.mp h
  rw [Str.stripPrefix_eq_some] at hrest
  cases hcut : req.delimiter.bind fun d => (Str.splitOnce d rest).map fun ab => ab.1 ++ d with
  | none =>
    rw [hcut] at hit
    refine Or.inl ⟨hit.symm, rest, hrest, fun d hd => ?_⟩
    rw [hd, Option.bind_some, Option.map_eq_none_iff] at hcut
    exact Str.not_infix_of_splitOnce hcut
  | some cut =>
    rw [hcut] at hit
    obtain ⟨d, hd, hcut⟩ := Option.bind_eq_some_iff.mp hcut
    obtain ⟨ab, -, rfl⟩ := Option.map_eq_some_iff.mp hcut
    exact Or.inr ⟨ab.1, d, hd, hit.symm⟩

theorem mem_items : it ∈ req.items objs ↔ ∃ o ∈ objs, req.itemOf o = some it := by
  rw [ListRequest.items, List.mem_dedup, List.mem_filterMap]

/-- An item is named after the beginning of a key. -/
theorem name_starts_key {o : StoredObject} (h : req.itemOf o = some it) : it.name <+: o.key := by
  obtain ⟨rest, hrest, hit⟩ := Option.map_eq_some_iff.mp h
  have hkey := Str.stripPrefix_eq_some.mp hrest
  cases hcut : req.delimiter.bind fun d => (Str.splitOnce d rest).map fun ab => ab.1 ++ d with
  | none =>
    rw [hcut] at hit
    subst hit
    exact List.prefix_refl o.key
  | some cut =>
    rw [hcut] at hit
    subst hit
    obtain ⟨d, -, hcut⟩ := Option.bind_eq_some_iff.mp hcut
    obtain ⟨ab, hab, rfl⟩ := Option.map_eq_some_iff.mp hcut
    rw [hkey, Str.splitOnce_eq_some hab]
    exact (List.prefix_append_right_inj req.keyPrefix).mpr ( List.prefix_append _ _)

/-- Names without spaces survive the encoding of a listing. -/
theorem percentDecode_name (hkeys : ∀ o ∈ objs, ' ' ∉ o.key) (h : it ∈ req.items objs) :
    percentDecode (urlEncode it.name) = it.name := by
  obtain ⟨o, ho, hit⟩ := mem_items.mp h
  rw [percentDecode_urlEncode, map_plusForSpace_eq_iff]
  exact fun hmem => hkeys o ho ((name_starts_key hit).subset hmem)

/-- Without a delimiter there are only objects. -/
theorem exists_object_of_mem_items (hd : req.delimiter = none) (h : it ∈ req.items objs) :
    ∃ o, it = .object o := by
  obtain ⟨o, -, ho⟩ := mem_items.mp h
  rcases itemOf_cases ho with ⟨rfl, -⟩ | ⟨a, d, hd', -⟩
  · exact ⟨o, rfl⟩
  · rw [hd] at hd'
    cases hd'

/-- No two items of a bucket have the same name. -/
theorem nodup_names (hkeys : (objs.map StoredObject.key).Nodup) :
    ((req.items objs).map ListItem.name).Nodup := by
  refine List.Nodup.map_on ?_ (List.nodup_dedup _)
  intro x hx y hy hxy
  obtain ⟨o, ho, hox⟩ := mem_items.mp hx
  obtain ⟨o', ho', hoy⟩ := mem_items.mp hy
  -- a common prefix ends with a delimiter, which the rest of an object's key has not
  have hne : ∀ {o : StoredObject} {rest a d : Str}, o.key = req.keyPrefix ++ rest →
      (∀ d, req.delimiter = some d → ¬ d <:+: rest) → req.delimiter = some d →
      o.key ≠ req.keyPrefix ++ (a ++ d) := by
    intro o rest a d hkey hno hd heq
    rw [hkey] at heq
    obtain rfl := List.append_cancel_left heq
    exact hno d hd (List.suffix_append a d).isInfix
  rcases itemOf_cases hox with ⟨rfl, rest, hkey, hno⟩ | ⟨a, d, hd, rfl⟩
  · rcases itemOf_cases hoy with ⟨rfl, -, -, -⟩ | ⟨a, d, hd, rfl⟩
    · rw [List.inj_on_of_nodup_map hkeys ho ho' hxy]
    · exact absurd hxy (hne hkey hno hd)
  · rcases itemOf_cases hoy with ⟨rfl, rest, hkey, hno⟩ | ⟨a', d', hd', rfl⟩
    · exact absurd hxy.symm (hne hkey hno hd)
    · exact congrArg ListItem.commonPrefix hxy

end Items

/-! ## Pages -/

/-- The page holds the items of the chunk, its common prefixes apart from its
contents. -/
structure Page.Holds (enc : Str → Str) (chunk : List ListItem) (page : Page) : Prop where
  commonPrefixes : page.commonPrefixes = chunk.filterMap (ListItem.encodedPrefix enc)
  contents : page.contents = chunk.filterMap (ListItem.encodedEntry enc)

/-- The pages hold the items, cut somewhere. -/
def PagesOf (enc : Str → Str) (items : List ListItem) (pages : List Page) : Prop :=
  ∃ chunks : List (List ListItem), chunks.flatten = items ∧
    List.Forall₂ (Page.Holds enc) chunks pages

/-- A conforming ListObjects: asked without a marker or with the name of the last
of the items that come before, it answers with the first of those that come after,
at least one if there are any, and says whether there are more. The next marker is
told when there are, and a delimiter. -/
def AnswersListV1 (enc : Str → Str) (objs : List StoredObject)
    (server : ListRequest → Except StorageError Page) : Prop :=
  ∀ (req : ListRequest) (before after : List ListItem), req.items objs = before ++ after →
    req.marker = before.getLast?.map ListItem.name → ∃ chunk rest page, after = chunk ++ rest ∧
      (after ≠ [] → chunk ≠ []) ∧ server req = .ok page ∧ page.Holds enc chunk ∧
      page.isTruncated.getD false = !rest.isEmpty ∧
      page.nextMarker = if rest.isEmpty || req.delimiter.isNone then none
        else chunk.getLast?.map fun it => enc it.name

/-- A conforming ListObjectsV2, through the paginator that follows its tokens. -/
def AnswersListV2 (enc : Str → Str) (objs : List StoredObject)
    (pages : ListRequest → List (Except StorageError Page)) : Prop :=
  ∀ req : ListRequest, req.startAfter = none →
    ∃ ps, pages req = ps.map .ok ∧ PagesOf enc (req.items objs) ps

/-- What a conforming server answers a listing with, up to its first failure: pages
of its items. Unless it fails these are all of them, if the names survive the
encoding that the markers go through. -/
def ListsItems (enc : Str → Str) (items : List ListItem) (pages : List (Except StorageError Page)) :
    Prop :=
  ∃ (sent : List ListItem) (ps : List Page) (failure : List (Except StorageError Page)),
    pages = ps.map .ok ++ failure ∧ PagesOf enc sent ps ∧ sent.Sublist items ∧
      ((∃ e, failure = [.error e]) ∨ failure = [] ∧
        ((∀ it ∈ items, percentDecode (enc it.name) = it.name) → sent = items))

/-- The paginator of a conforming ListObjectsV2 is answered so. -/
theorem AnswersListV2.listsItems {enc : Str → Str} {objs : List StoredObject}
    {pages : ListRequest → List (Except StorageError Page)} (h : AnswersListV2 enc objs pages)
    {req : ListRequest} (hreq : req.startAfter = none) : ListsItems enc (req.items objs) (pages req) := by
  obtain ⟨ps, hpages, hps⟩ := h req hreq
  exact ⟨req.items objs, ps, [], by rw [hpages, List.append_nil], hps, List.Sublist.refl _,
    .inr ⟨rfl, fun _ => rfl⟩⟩

section Pages

variable {enc : Str → Str} {src : Url}

/-- What a page sends is what its items are listed as, in another order. -/
theorem pageObjects_perm {chunk : List ListItem} {page : Page} (h : page.Holds enc chunk) :
    (pageObjects src page).Perm (chunk.filterMap (ListItem.listed enc src)) := by
  rw [pageObjects, h.commonPrefixes, h.contents, List.filterMap_filterMap, List.filterMap_filterMap]
  clear h
  induction chunk with
  | nil => exact List.Perm.nil
  | cons it chunk ih =>
    cases it with
    | commonPrefix p =>
      simp only [List.filterMap_cons, ListItem.encodedPrefix, ListItem.encodedEntry,
        Option.bind_some, Option.bind_none, ListItem.listed]
      cases commonPrefixObject src (some (enc p)) with
      | none => exact ih
      | some obj => exact ih.cons obj
    | object o =>
      simp only [List.filterMap_cons, ListItem.encodedPrefix, ListItem.encodedEntry,
        Option.bind_some, Option.bind_none, ListItem.listed]
      cases contentObject src (o.entry enc) with
      | none => exact ih
      | some obj => exact List.perm_middle.trans (ih.cons obj)

theorem flatMap_pageObjects_perm {items : List ListItem} {pages : List Page}
    (h : PagesOf enc items pages) :
    (pages.flatMap (pageObjects src)).Perm (items.filterMap (ListItem.listed enc src)) := by
  obtain ⟨chunks, rfl, hall⟩ := h
  induction hall with
  | nil => exact List.Perm.nil
  | cons hpage _ ih =>
    rw [List.flatMap_cons, List.flatten_cons, List.filterMap_append]
    exact (pageObjects_perm hpage).append ih

/-- The paginator's loop sends the objects of all pages, then the end. -/
theorem listV2Go_ok (src : Url) (found : Bool) (pages : List Page) :
    listV2Go src found (pages.map .ok) = pages.flatMap (pageObjects src) ++
      listEnd src (found || !(pages.flatMap (pageObjects src)).isEmpty) := by
  induction pages generalizing found with
  | nil => simp [listV2Go]
  | cons page pages ih =>
    rw [List.map_cons, listV2Go, ih, List.flatMap_cons, List.append_assoc]
    congr 3
    cases pageObjects src page with
    | nil => simp
    | cons obj objs => simp

/-- What is listed for an item goes by its name. -/
theorem listed_path {it : ListItem} {obj : Object} (hdec : percentDecode (enc it.name) = it.name)
    (h : it.listed enc src = some obj) : obj.url.map Url.path = some it.name ∧ obj.err = none := by
  have hpath : ∀ {raw : Str} {u : Url}, src.listed raw = some u → u.path = percentDecode raw := by
    intro raw u hu
    obtain ⟨-, rfl⟩ := Url.listed_eq_some.mp hu
    rfl
  cases it with
  | commonPrefix p =>
    obtain ⟨u, hu, rfl⟩ := Option.map_eq_some_iff.mp h
    exact ⟨congrArg some ((hpath hu).trans hdec), rfl⟩
  | object o =>
    obtain ⟨u, hu, rfl⟩ := Option.map_eq_some_iff.mp h
    exact ⟨congrArg some ((hpath hu).trans hdec), rfl⟩

/-- The paths of the listed items are some of their names. -/
theorem listed_paths_sublist {items : List ListItem}
    (hdec : ∀ it ∈ items, percentDecode (enc it.name) = it.name) :
    ((items.filterMap (ListItem.listed enc src)).map fun obj => obj.url.map Url.path).Sublist
      (items.map fun it => some it.name) := by
  induction items with
  | nil => exact List.Sublist.slnil
  | cons it items ih =>
    have ih := ih fun it' hit' => hdec it' (List.mem_cons_of_mem it hit')
    rw [List.filterMap_cons, List.map_cons]
    cases hobj : it.listed enc src with
    | none => exact ih.cons _
    | some obj =>
      dsimp only
      rw [List.map_cons, (listed_path (hdec it List.mem_cons_self) hobj).1]
      exact ih.cons_cons _

end Pages

end Rs5cmd
