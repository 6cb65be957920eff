import Rs5cmd.Storage.S3.Server
import Mathlib.Logic.Function.Basic
import Mathlib.Data.List.Nodup

/-!
# Buckets and what copies and deletions do to them

The store as `sync` acts on it: named buckets of objects with distinct keys. A
listing describes the objects of one bucket, a copy reads one and writes one.
-/

namespace Rs5cmd

/-- The content of a bucket: objects under distinct keys. -/
structure Bucket where
  objs : List StoredObject
  nodup : (objs.map StoredObject.key).Nodup

namespace Bucket

/-- No objects. -/
def empty : Bucket := ⟨[], List.nodup_nil⟩

/-- The object under a key. -/
def find (b : Bucket) (key : Str) : Option StoredObject := b.objs.find? fun o => o.key == key

/-- DeleteObject. -/
def remove (b : Bucket) (key : Str) : Bucket where
  objs := b.objs.filter fun o => o.key != key
  nodup := b.nodup.sublist (List.filter_sublist.map _)

/-- PutObject or CopyObject: the object replaces the one under its key. -/
def put (b : Bucket) (o : StoredObject) : Bucket where
  objs := o :: (b.remove o.key).objs
  nodup := by
    refine List.nodup_cons.mpr ⟨?_, (b.remove o.key).nodup⟩
    intro hmem
    obtain ⟨o', ho', hkey⟩ := List.mem_map.mp hmem
    have hne := (List.mem_filter.mp ho').2
    rw [hkey] at hne
    simp at hne

/-- The size of the object under a key. -/
def sizeAt (b : Bucket) (key : Str) : Option Int := (b.find key).map StoredObject.size

variable {b : Bucket} {key : Str}

theorem find_eq_some {o : StoredObject} : b.find key = some o ↔ o ∈ b.objs ∧ o.key = key := by
  constructor
  · intro h
    exact ⟨List.mem_of_find?_eq_some h, by simpa using List.find?_some h⟩
  · rintro ⟨ho, rfl⟩
    cases hf : b.find o.key with
    | none =>
      have := List.find?_eq_none.mp hf o ho
      simp at this
    | some o' =>
      have hmem := List.mem_of_find?_eq_some hf
      have hkey : o'.key = o.key := by simpa using List.find?_some hf
      rw [List.inj_on_of_nodup_map b.nodup hmem ho hkey]

theorem find_eq_none : b.find key = none ↔ ∀ o ∈ b.objs, o.key ≠ key := by
  rw [find, List.find?_eq_none]
  simp

theorem find_put (o : StoredObject) (key : Str) :
    (b.put o).find key = if o.key = key then some o else b.find key := by
  unfold find put
  rw [List.find?_cons]
  split
  · rename_i heq
    rw [if_pos (by simpa using heq)]
  · rename_i hne
    have hne' : o.key ≠ key := by simpa using hne
    rw [if_neg hne', remove, List.find?_filter]
    congr 1
    funext o'
    by_cases h : o'.key = key
    · simp [h, Ne.symm hne']
    · simp [h]

theorem find_remove (k key : Str) :
    (b.remove k).find key = if k = key then none else b.find key := by
  unfold find remove
  rw [List.find?_filter]
  split
  · rename_i heq
    subst heq
    rw [List.find?_eq_none]
    simp
  · rename_i hne
    congr 1
    funext o
    by_cases h : o.key = key
    · simp [h, Ne.symm hne]
    · simp [h]

end Bucket

/-! ## The store -/

/-- The buckets by name. -/
abbrev Store := Str → Bucket

/-- What a copy does not take from its source: the entity tag, the time and the
storage class are the copy's own. -/
structure CopyStamp where
  etag : Str := []
  lastModified : Int := 0
  storageClass : Str := []

/-- The copy of an object under another key. -/
def StoredObject.copied (o : StoredObject) (stamp : CopyStamp) (key : Str) : StoredObject where
  key := key
  etag := stamp.etag
  lastModified := stamp.lastModified
  size := o.size
  storageClass := stamp.storageClass

namespace Store

/-- A copy, which fails when there is no source object. -/
def copy (stamp : Url → CopyStamp) (st : Store) (p : Url × Url) : Option Store :=
  ((st p.1.bucket).find p.1.path).map fun o =>
    Function.update st p.2.bucket ((st p.2.bucket).put (o.copied (stamp p.2) p.2.path))

/-- A deletion; there may be no object. -/
def delete (st : Store) (u : Url) : Store :=
  Function.update st u.bucket ((st u.bucket).remove u.path)

/-- Copies in the order given, then deletions; `none` when a copy fails. -/
def execute (stamp : Url → CopyStamp) (copies : List (Url × Url)) (deletes : List Url)
    (st : Store) : Option Store :=
  (copies.foldlM (copy stamp) st).map fun st' => deletes.foldl delete st'

/-- The copies read one bucket and write another. -/
def Between (a b : Str) (copies : List (Url × Url)) : Prop :=
  ∀ p ∈ copies, p.1.bucket = a ∧ p.2.bucket = b

variable {stamp : Url → CopyStamp} {a b : Str} {st st' : Store}

/-- **What copies leave**: the other buckets as they were, and in the bucket they
write a copy of the last object copied to each key. -/
theorem foldlM_copy {copies : List (Url × Url)} (hab : a ≠ b) (hbetween : Between a b copies)
    (h : copies.foldlM (copy stamp) st = some st') :
    (∀ c, c ≠ b → st' c = st c) ∧
      (∀ key, (∀ p ∈ copies, p.2.path ≠ key) → (st' b).find key = (st b).find key) ∧
      ∀ p ∈ copies, ∃ q ∈ copies, q.2.path = p.2.path ∧ ∃ o, (st a).find q.1.path = some o ∧
        (st' b).find p.2.path = some (o.copied (stamp q.2) q.2.path) := by
  induction copies generalizing st with
  | nil =>
    obtain rfl := Option.some.inj h
    exact ⟨fun _ _ => rfl, fun _ _ => rfl, by simp⟩
  | cons p rest ih =>
    obtain ⟨st₁, hst₁, hrest⟩ := Option.bind_eq_some_iff.mp (show (copy stamp st p).bind _ = _ from h)
    obtain ⟨hpa, hpb⟩ := hbetween p List.mem_cons_self
    obtain ⟨o, ho, rfl⟩ := Option.map_eq_some_iff.mp hst₁
    rw [hpa] at ho
    rw [hpb] at hrest
    obtain ⟨hother, hfind, hcopied⟩ := ih
      (fun q hq => hbetween q (List.mem_cons_of_mem p hq)) hrest
    refine ⟨?_, ?_, ?_⟩
    · intro c hc
      rw [hother c hc, Function.update_of_ne hc]
    · intro key hkey
      rw [hfind key fun q hq => hkey q (List.mem_cons_of_mem p hq), Function.update_self,
        Bucket.find_put]
      exact if_neg (hkey p List.mem_cons_self)
    · intro q hq
      by_cases hlater : ∃ q' ∈ rest, q'.2.path = q.2.path
      · -- a later copy to the same key decides
        obtain ⟨q', hq', hpath⟩ := hlater
        obtain ⟨r, hr, hrpath, o', ho', hfinal⟩ := hcopied q' hq'
        rw [Function.update_of_ne hab] at ho'
        exact ⟨r, List.mem_cons_of_mem p hr, hrpath.trans hpath, o', ho', hpath ▸ hfinal⟩
      · have hqp : q = p := by
          rcases List.mem_cons.mp hq with hqp | hq
          · exact hqp
          · exact absurd ⟨q, hq, rfl⟩ hlater
        subst hqp
        refine ⟨q, List.mem_cons_self, rfl, o, ho, ?_⟩
        rw [hfind q.2.path fun q' hq' heq => hlater ⟨q', hq', heq⟩, Function.update_self,
          Bucket.find_put]
        exact if_pos rfl

/-- Copies whose sources are all there succeed. -/
theorem exists_foldlM_copy (hab : a ≠ b) {copies : List (Url × Url)}
    (hbetween : Between a b copies) (hfound : ∀ p ∈ copies, (st a).find p.1.path ≠ none) :
    ∃ st', copies.foldlM (copy stamp) st = some st' := by
  induction copies generalizing st with
  | nil => exact ⟨st, rfl⟩
  | cons p rest ih =>
    obtain ⟨hpa, hpb⟩ := hbetween p List.mem_cons_self
    obtain ⟨o, ho⟩ := Option.ne_none_iff_exists'.mp (hfound p List.mem_cons_self)
    rw [← hpa] at ho
    have hfound' : ∀ q ∈ rest, (Function.update st p.2.bucket
        ((st p.2.bucket).put (o.copied (stamp p.2) p.2.path)) a).find q.1.path ≠ none := by
      intro q hq
      rw [hpb, Function.update_of_ne hab]
      exact hfound q (List.mem_cons_of_mem p hq)
    obtain ⟨st', hst'⟩ := ih (fun q hq => hbetween q (List.mem_cons_of_mem p hq)) hfound'
    refine ⟨st', ?_⟩
    rw [List.foldlM_cons, copy, ho]
    exact hst'

/-- **What deletions leave.** -/
theorem foldl_delete {deletes : List Url} (hb : ∀ u ∈ deletes, u.bucket = b) (st : Store) :
    (∀ c, c ≠ b → deletes.foldl delete st c = st c) ∧
      ∀ key, (deletes.foldl delete st b).find key =
        if ∃ u ∈ deletes, u.path = key then none else (st b).find key := by
  induction deletes generalizing st with
  | nil => simp
  | cons u rest ih =>
    obtain ⟨hother, hfind⟩ := ih (fun v hv => hb v (List.mem_cons_of_mem u hv)) (st.delete u)
    have hub := hb u List.mem_cons_self
    rw [List.foldl_cons]
    refine ⟨?_, ?_⟩
    · intro c hc
      rw [hother c hc, delete, hub, Function.update_of_ne hc]
    · intro key
      rw [hfind key, delete, hub, Function.update_self, Bucket.find_remove]
      simp only [List.mem_cons, exists_eq_or_imp]
      by_cases hrest : ∃ v ∈ rest, v.path = key
      · simp [hrest]
      · by_cases hu : u.path = key <;> simp [hrest, hu]

end Store

end Rs5cmd
