import Rs5cmd.Mount.Honest
import Rs5cmd.Theorems.WriterKey

/-!
# A directory rename that stops halfway

A directory is renamed by copying every key under it and then deleting every one.
The copies land outside the old subtree and the deletes start only after the last
copy, so at whichever request the rename fails each object is still at its old key
or already at its new one.
-/

namespace Rs5cmd

open Cmd

/-! ## What the listing says -/

/-- The answers to a listing hold keys of the bucket that the request covers, and
all of them unless one is an error. No delimiter is asked for, so there are no
common prefixes, and an error of the service is not the client's own
`NoObjectFound`. -/
structure TruePages (enc : Str → Str) (bucket : Str → Option Stored) (req : ListRequest)
    (pages : List (Except StorageError Page)) : Prop where
  commonPrefixes : ∀ page, .ok page ∈ pages → page.commonPrefixes = []
  sound : ∀ page, .ok page ∈ pages → ∀ c ∈ page.contents,
    ∃ key, c.key = some (enc key) ∧ bucket key ≠ none ∧ req.Covers key
  complete : (∀ e, .error e ∉ pages) → ∀ key, bucket key ≠ none → req.Covers key →
    ∃ page, .ok page ∈ pages ∧ ∃ c ∈ page.contents, c.key = some (enc key)
  errors : ∀ e, .error e ∈ pages → e ≠ .noObjectFound

/-- The recursive listing of the rename is what one of the listers makes of true
pages, in which the keys under the directory are decoded to themselves. -/
def TrueListing (cfg : VfsConfig) (io : Io) (bucket : Str → Option Stored) (dirKey : Str) : Prop :=
  ∃ (s3 : S3) (enc : Str → Str) (pages : List (Except StorageError Page)),
    (∀ key, bucket key ≠ none → (listV2Request (cfg.treeUrl dirKey)).Covers key →
        percentDecode (enc key) = key) ∧
      s3.Answers (cfg.treeUrl dirKey) pages ∧ TruePages enc bucket (listV2Request (cfg.treeUrl dirKey)) pages ∧
      io.listAll = s3.list (cfg.treeUrl dirKey)

/-- The key an entry shows. -/
def Entry.shownKey? (c : Entry) : Option Str := c.key.map percentDecode

section Listing

variable {cfg : VfsConfig} {oldPrefix : Str}

/-- The listing of a tree asks for the keys under it. -/
theorem covers_treeUrl (hglob : hasGlobCharacter oldPrefix = false) {key : Str} :
    (listV2Request (cfg.treeUrl oldPrefix)).Covers key ↔ oldPrefix <+: key := by
  have hlit : (listV2Request (cfg.treeUrl oldPrefix)).keyPrefix = oldPrefix :=
    Url.literalPart_of_globPart (Url.globPart_of_literal hglob)
  unfold ListRequest.Covers
  rw [hlit]
  refine and_iff_left ?_
  intro d hd
  cases hd

/-- The object of a true entry: its URL has the key as its path. -/
theorem contentObject_treeUrl (cfg : VfsConfig) (hglob : hasGlobCharacter oldPrefix = false)
    {key : Str} (hkey : oldPrefix <+: key) {c : Entry} (hc : c.shownKey? = some key) :
    ∃ obj, contentObject (cfg.treeUrl oldPrefix) c = some obj ∧ obj.err = none ∧
      obj.url.map Url.path = some key := by
  obtain ⟨t, ht⟩ := hkey
  obtain ⟨raw, hraw, hdec⟩ := Option.map_eq_some_iff.mp hc
  have hmatch : (cfg.treeUrl oldPrefix).isMatch key = true :=
    (Url.isMatch_literal hglob rfl key).mpr ⟨t, ht.symm⟩
  have hlisted : (cfg.treeUrl oldPrefix).listed raw =
      some { cfg.treeUrl oldPrefix with
        relativePath := (cfg.treeUrl oldPrefix).relativeOf key, path := key } := by
    rw [Url.listed, hdec, Url.matches?, if_pos hmatch]
    rfl
  rw [contentObject, hraw, Option.bind_some, hlisted, Option.map_some]
  exact ⟨_, rfl, rfl, rfl⟩

/-- The objects of a true page are its keys. -/
theorem listedPaths_page (cfg : VfsConfig) (hglob : hasGlobCharacter oldPrefix = false)
    {contents : List Entry}
    (hcontents : ∀ c ∈ contents, ∃ key, c.shownKey? = some key ∧ oldPrefix <+: key) :
    (∀ o ∈ contents.filterMap (contentObject (cfg.treeUrl oldPrefix)), o.err = none) ∧
      ∀ key, key ∈ listedPaths (contents.filterMap (contentObject (cfg.treeUrl oldPrefix))) ↔
        ∃ c ∈ contents, c.shownKey? = some key := by
  refine ⟨?_, ?_⟩
  · intro o ho
    obtain ⟨c, hc, hobj⟩ := List.mem_filterMap.mp ho
    obtain ⟨key, hkey, hpre⟩ := hcontents c hc
    obtain ⟨obj, hobj', herr, -⟩ := contentObject_treeUrl cfg hglob hpre hkey
    obtain rfl : obj = o := Option.some.inj (hobj'.symm.trans hobj)
    exact herr
  · intro key
    unfold listedPaths
    rw [List.mem_filterMap]
    constructor
    · rintro ⟨o, ho, hpath⟩
      obtain ⟨c, hc, hobj⟩ := List.mem_filterMap.mp ho
      obtain ⟨key', hkey, hpre⟩ := hcontents c hc
      obtain ⟨obj, hobj', -, hpath'⟩ := contentObject_treeUrl cfg hglob hpre hkey
      obtain rfl : obj = o := Option.some.inj (hobj'.symm.trans hobj)
      obtain rfl : key' = key := Option.some.inj (hpath'.symm.trans hpath)
      exact ⟨c, hc, hkey⟩
    · rintro ⟨c, hc, hkey⟩
      obtain ⟨key', hkey', hpre⟩ := hcontents c hc
      obtain rfl : key' = key := Option.some.inj (hkey'.symm.trans hkey)
      obtain ⟨obj, hobj, -, hpath⟩ := contentObject_treeUrl cfg hglob hpre hkey
      exact ⟨obj, List.mem_filterMap.mpr ⟨c, hc, hobj⟩, hpath⟩

/-- A true listing that has no error gives the keys of its pages; one that has an
error fails the rename. -/
theorem listedKeys_listV2Go (hglob : hasGlobCharacter oldPrefix = false)
    {pages : List (Except StorageError Page)}
    (hcommon : ∀ page, .ok page ∈ pages → page.commonPrefixes = [])
    (hsound : ∀ page, .ok page ∈ pages → ∀ c ∈ page.contents,
      ∃ key, c.shownKey? = some key ∧ oldPrefix <+: key)
    (herrors : ∀ e, .error e ∈ pages → e ≠ .noObjectFound) (found : Bool) (s : Vfs) :
    (∃ e, Vfs.listedKeys (listV2Go (cfg.treeUrl oldPrefix) found pages) s = (.error e, s)) ∨
      ((∀ e, .error e ∉ pages) ∧
        ∃ keys, Vfs.listedKeys (listV2Go (cfg.treeUrl oldPrefix) found pages) s = (.ok keys, s) ∧
          ∀ key, key ∈ keys ↔ ∃ page, .ok page ∈ pages ∧ ∃ c ∈ page.contents, c.shownKey? = some key) := by
  induction pages generalizing found with
  | nil => exact Or.inr ⟨by simp, [], listedKeys_listEnd _ _ s, by simp⟩
  | cons answer pages ih =>
    cases answer with
    | error e =>
      refine Or.inl ⟨.storage e, ?_⟩
      have hne := herrors e List.mem_cons_self
      have hno : isNoObject e = false := by cases e <;> simp_all [isNoObject]
      simp only [listV2Go, Vfs.listedKeys, Object.withError, hno]
      rfl
    | ok page =>
      have hpage : pageObjects (cfg.treeUrl oldPrefix) page =
          page.contents.filterMap (contentObject (cfg.treeUrl oldPrefix)) := by
        rw [pageObjects, hcommon page List.mem_cons_self]
        rfl
      obtain ⟨hok, hpaths⟩ := listedPaths_page cfg hglob (hsound page List.mem_cons_self)
      simp only [listV2Go, hpage, listedKeys_append hok]
      rcases ih (fun p hp => hcommon p (List.mem_cons_of_mem _ hp))
        (fun p hp => hsound p (List.mem_cons_of_mem _ hp))
        (fun e he => herrors e (List.mem_cons_of_mem _ he)) _ with
        ⟨e, he⟩ | ⟨hnone, keys, hkeys, hmem⟩
      · exact Or.inl ⟨e, by rw [he]⟩
      · refine Or.inr ⟨by simpa using hnone, listedPaths _ ++ keys, by rw [hkeys], ?_⟩
        intro key
        rw [List.mem_append, hpaths, hmem]
        simp [or_and_right, exists_or]

end Listing

/-! ## Requests -/

/-- What a copy does: the bytes of the source are at the destination, or it fails,
with or without having done that. -/
theorem copy_cases (fault : RequestFault) (io : Io) (src dst : Url) (s : Vfs) :
    (∃ o, s.bucket src.path = some o ∧
        Vfs.copy fault io src dst s = (.ok (), s.put io dst.path o.bytes)) ∨
      ∃ e t, Vfs.copy fault io src dst s = (.error e, t) ∧
        (t = s ∨ ∃ o, s.bucket src.path = some o ∧ t = s.put io dst.path o.bytes) := by
  unfold Vfs.copy
  rw [get_bind]
  cases hsrc : s.bucket src.path with
  | none => exact Or.inr ⟨_, s, rfl, Or.inl rfl⟩
  | some o =>
    rcases fault with _ | ⟨e, _ | _⟩
    · exact Or.inl ⟨o, rfl, rfl⟩
    · exact Or.inr ⟨_, s, rfl, Or.inl rfl⟩
    · exact Or.inr ⟨_, _, rfl, Or.inr ⟨o, rfl, rfl⟩⟩

/-- The bucket without an object. -/
def Vfs.remove (s : Vfs) (key : Str) : Vfs := { s with bucket := Function.update s.bucket key none }

theorem delete_cases (fault : RequestFault) (u : Url) (s : Vfs) :
    Vfs.delete fault u s = (.ok (), s.remove u.path) ∨
      ∃ e t, Vfs.delete fault u s = (.error e, t) ∧ (t = s ∨ t = s.remove u.path) := by
  rcases fault with _ | ⟨e, _ | _⟩
  · exact Or.inl rfl
  · exact Or.inr ⟨_, s, rfl, Or.inl rfl⟩
  · exact Or.inr ⟨_, _, rfl, Or.inr rfl⟩

/-! ## The two loops -/

/-- The object is readable with the given bytes. -/
def HasBytes (bucket : Str → Option Stored) (key : Str) (bytes : List UInt8) : Prop :=
  ∃ o, bucket key = some o ∧ o.bytes = bytes

/-- Neither subtree contains the other. -/
structure Apart (oldPrefix newPrefix : Str) : Prop where
  not_old : ¬ oldPrefix <+: newPrefix
  not_new : ¬ newPrefix <+: oldPrefix

section Loops

variable {cfg : VfsConfig} {io : Io} {oldPrefix newPrefix : Str} {s : Vfs}

theorem Apart.old_append (h : Apart oldPrefix newPrefix) (suffix : Str) :
    ¬ newPrefix <+: oldPrefix ++ suffix := by
  intro hpre
  rcases List.prefix_or_prefix_of_prefix hpre (List.prefix_append oldPrefix suffix) with h' | h'
  · exact h.not_new h'
  · exact h.not_old h'

theorem Apart.new_append (h : Apart oldPrefix newPrefix) (suffix : Str) :
    ¬ oldPrefix <+: newPrefix ++ suffix := by
  intro hpre
  rcases List.prefix_or_prefix_of_prefix hpre (List.prefix_append newPrefix suffix) with h' | h'
  · exact h.not_old h'
  · exact h.not_new h'

/-- While copying from `s`: nothing has changed outside the new subtree. -/
structure Copying (newPrefix : Str) (s t : Vfs) : Prop where
  frame : UpToBucket s t
  outside : ∀ key, ¬ newPrefix <+: key → t.bucket key = s.bucket key

/-- The objects at the given old keys have been copied. -/
structure Copied (oldPrefix newPrefix : Str) (s : Vfs) (done : List Str) (t : Vfs) : Prop
    extends Copying newPrefix s t where
  copies : ∀ suffix o, oldPrefix ++ suffix ∈ done → s.bucket (oldPrefix ++ suffix) = some o →
    HasBytes t.bucket (newPrefix ++ suffix) o.bytes

theorem Copying.put {t : Vfs} (h : Copying newPrefix s t) (suffix : Str) (b : List UInt8) :
    Copying newPrefix s (t.put io (newPrefix ++ suffix) b) := by
  obtain ⟨b', rfl⟩ := h.frame
  refine ⟨⟨_, rfl⟩, ?_⟩
  intro key hkey
  have hne : key ≠ newPrefix ++ suffix := by
    rintro rfl
    exact hkey (List.prefix_append _ _)
  rw [Vfs.bucket_put_of_ne _ _ hne]
  exact h.outside key hkey

/-- One copy. -/
theorem triple_copy (hapart : Apart oldPrefix newPrefix) (done : List Str) (fault : RequestFault)
    (suffix : Str) :
    Triple (Copied oldPrefix newPrefix s done)
      (Vfs.copy fault io (cfg.url (oldPrefix ++ suffix)) (cfg.url (newPrefix ++ suffix)))
      (fun _ => Copied oldPrefix newPrefix s (done ++ [oldPrefix ++ suffix]))
      (fun _ => Copying newPrefix s) := by
  intro t h
  rcases copy_cases fault io (cfg.url (oldPrefix ++ suffix)) (cfg.url (newPrefix ++ suffix)) t with
    ⟨o, ho, hrun⟩ | ⟨e, u, hrun, rfl | ⟨o, ho, rfl⟩⟩
  · rw [hrun]
    refine ⟨h.toCopying.put suffix o.bytes, ?_⟩
    have hsrc : s.bucket (oldPrefix ++ suffix) = some o := by
      rw [← h.outside _ (hapart.old_append suffix)]
      exact ho
    intro x o' hx ho'
    by_cases hsame : x = suffix
    · subst hsame
      obtain rfl : o = o' := Option.some.inj (hsrc.symm.trans ho')
      exact ⟨_, Vfs.bucket_put_self _ _ _ _, rfl⟩
    · have hne : newPrefix ++ x ≠ newPrefix ++ suffix := fun heq => hsame (List.append_cancel_left heq)
      have hdone : oldPrefix ++ x ∈ done := by
        rcases List.mem_append.mp hx with hx | hx
        · exact hx
        · exact absurd (List.append_cancel_left (List.mem_singleton.mp hx)) hsame
      obtain ⟨c, hc, hbytes⟩ := h.copies x o' hdone ho'
      exact ⟨c, (Vfs.bucket_put_of_ne _ _ hne _).trans hc, hbytes⟩
  · rw [hrun]
    exact h.toCopying
  · rw [hrun]
    exact h.toCopying.put suffix o.bytes

theorem mem_of_zipIdx_split {keys : List Str} {done rest : List (Str × Nat)} {e : Str × Nat}
    (h : keys.zipIdx = done ++ e :: rest) : e.1 ∈ keys := by
  have hmem : e ∈ keys.zipIdx := by
    rw [h]
    simp
  exact List.fst_mem_of_mem_zipIdx hmem

/-- The copies of a rename: they are all there, or it fails with everything outside
the new subtree as it was. -/
theorem triple_copyKeys (hapart : Apart oldPrefix newPrefix) {keys : List Str}
    (hkeys : ∀ key ∈ keys, oldPrefix <+: key) :
    Triple (· = s) (Vfs.copyKeys cfg io oldPrefix newPrefix keys)
      (fun _ => Copied oldPrefix newPrefix s keys) (fun _ => Copying newPrefix s) := by
  have hloop : Triple (Copied oldPrefix newPrefix s [])
      (Vfs.copyKeys cfg io oldPrefix newPrefix keys)
      (fun _ => Copied oldPrefix newPrefix s (keys.zipIdx.map Prod.fst))
      (fun _ => Copying newPrefix s) := by
    refine triple_forEach (R := fun done => Copied oldPrefix newPrefix s (done.map Prod.fst)) ?_
    rintro done ⟨key, i⟩ rest hsplit
    obtain ⟨suffix, rfl⟩ := hkeys key (mem_of_zipIdx_split hsplit)
    have hstrip : (Str.stripPrefix oldPrefix (oldPrefix ++ suffix)).getD (oldPrefix ++ suffix) =
        suffix := by
      simp [Str.stripPrefix]
    simp only [hstrip, cfg.objUrl_eq, List.map_append, List.map_cons, List.map_nil]
    exact triple_copy hapart (done.map Prod.fst) (io.copy i) suffix
  rw [List.zipIdx_map_fst] at hloop
  refine hloop.conseq ?_ (fun _ _ h => h) (fun _ _ h => h)
  rintro t rfl
  exact ⟨⟨⟨_, rfl⟩, fun _ _ => rfl⟩, by simp⟩

/-- While deleting: every object of the old subtree is at its new key, and only the
listed keys are touched. -/
structure Deleting (oldPrefix newPrefix : Str) (keys : List Str) (s t : Vfs) : Prop where
  frame : UpToBucket s t
  copies : ∀ suffix o, oldPrefix ++ suffix ∈ keys → s.bucket (oldPrefix ++ suffix) = some o →
    HasBytes t.bucket (newPrefix ++ suffix) o.bytes
  untouched : ∀ key, ¬ newPrefix <+: key → key ∉ keys → t.bucket key = s.bucket key

structure Deleted (oldPrefix newPrefix : Str) (keys : List Str) (s : Vfs) (done : List Str) (t : Vfs) :
    Prop extends Deleting oldPrefix newPrefix keys s t where
  gone : ∀ key ∈ done, t.bucket key = none

theorem Copied.deleting {keys : List Str} {t : Vfs} (h : Copied oldPrefix newPrefix s keys t) :
    Deleted oldPrefix newPrefix keys s [] t :=
  ⟨⟨h.frame, h.copies, fun key hkey _ => h.outside key hkey⟩, by simp⟩

theorem Deleting.remove (hapart : Apart oldPrefix newPrefix) {keys : List Str} {t : Vfs}
    (h : Deleting oldPrefix newPrefix keys s t) {suffix : Str} (hkey : oldPrefix ++ suffix ∈ keys) :
    Deleting oldPrefix newPrefix keys s (t.remove (oldPrefix ++ suffix)) := by
  obtain ⟨b, rfl⟩ := h.frame
  refine ⟨⟨_, rfl⟩, ?_, ?_⟩
  · intro x o hx ho
    obtain ⟨c, hc, hbytes⟩ := h.copies x o hx ho
    have hne : newPrefix ++ x ≠ oldPrefix ++ suffix := by
      intro heq
      exact hapart.new_append x (heq ▸ List.prefix_append _ _)
    exact ⟨c, (Function.update_of_ne hne _ _).trans hc, hbytes⟩
  · intro key hnew hnot
    have hne : key ≠ oldPrefix ++ suffix := by
      rintro rfl
      exact hnot hkey
    exact (Function.update_of_ne hne _ _).trans (h.untouched key hnew hnot)

/-- One delete. -/
theorem triple_delete (hapart : Apart oldPrefix newPrefix) {keys : List Str} (done : List Str)
    (fault : RequestFault) {suffix : Str} (hkey : oldPrefix ++ suffix ∈ keys) :
    Triple (Deleted oldPrefix newPrefix keys s done)
      (Vfs.delete fault (cfg.url (oldPrefix ++ suffix)))
      (fun _ => Deleted oldPrefix newPrefix keys s (done ++ [oldPrefix ++ suffix]))
      (fun _ => Deleting oldPrefix newPrefix keys s) := by
  intro t ht
  have hremoved := ht.toDeleting.remove hapart hkey
  rcases delete_cases fault (cfg.url (oldPrefix ++ suffix)) t with hrun | ⟨e, u, hrun, rfl | rfl⟩
  · rw [hrun]
    refine ⟨hremoved, ?_⟩
    intro key hmem
    by_cases hsame : key = oldPrefix ++ suffix
    · subst hsame
      exact Function.update_self _ _ _
    · have hdone : key ∈ done := by
        rcases List.mem_append.mp hmem with hmem | hmem
        · exact hmem
        · exact absurd (List.mem_singleton.mp hmem) hsame
      exact (Function.update_of_ne hsame _ _).trans (ht.gone key hdone)
  · rw [hrun]
    exact ht.toDeleting
  · rw [hrun]
    exact hremoved

theorem triple_deleteKeys (hapart : Apart oldPrefix newPrefix) {keys : List Str}
    (hkeys : ∀ key ∈ keys, oldPrefix <+: key) :
    Triple (Copied oldPrefix newPrefix s keys) (Vfs.deleteKeys cfg io keys)
      (fun _ => Deleted oldPrefix newPrefix keys s keys)
      (fun _ => Deleting oldPrefix newPrefix keys s) := by
  have hloop : Triple (Deleted oldPrefix newPrefix keys s []) (Vfs.deleteKeys cfg io keys)
      (fun _ => Deleted oldPrefix newPrefix keys s (keys.zipIdx.map Prod.fst))
      (fun _ => Deleting oldPrefix newPrefix keys s) := by
    refine triple_forEach (R := fun done => Deleted oldPrefix newPrefix keys s (done.map Prod.fst)) ?_
    rintro done ⟨key, i⟩ rest hsplit
    have hmem : key ∈ keys := mem_of_zipIdx_split hsplit
    obtain ⟨suffix, rfl⟩ := hkeys key hmem
    simp only [cfg.objUrl_eq, List.map_append, List.map_cons, List.map_nil]
    exact triple_delete hapart (done.map Prod.fst) (io.delete i) hmem
  rw [List.zipIdx_map_fst] at hloop
  exact hloop.conseq (fun _ h => h.deleting) (fun _ _ h => h) (fun _ _ h => h)

end Loops

/-! ## The rename -/

/-- Every object of the old subtree is readable with its bytes at its old key or at
its new one, and nothing outside both subtrees has changed. -/
structure TreeKept (oldPrefix newPrefix : Str) (before after : Str → Option Stored) : Prop where
  readable : ∀ suffix o, before (oldPrefix ++ suffix) = some o →
    HasBytes after (oldPrefix ++ suffix) o.bytes ∨ HasBytes after (newPrefix ++ suffix) o.bytes
  outside : ∀ key, ¬ oldPrefix <+: key → ¬ newPrefix <+: key → after key = before key

/-- Every object of the old subtree is at its new key, and none is left. -/
structure TreeMoved (oldPrefix newPrefix : Str) (before after : Str → Option Stored) : Prop where
  moved : ∀ suffix o, before (oldPrefix ++ suffix) = some o →
    HasBytes after (newPrefix ++ suffix) o.bytes
  empty : ∀ suffix, after (oldPrefix ++ suffix) = none

section Rename

variable {cfg : VfsConfig} {io : Io} {oldPrefix newPrefix : Str} {s : Vfs}

theorem treeKept_refl (b : Str → Option Stored) : TreeKept oldPrefix newPrefix b b :=
  ⟨fun _ o ho => Or.inl ⟨o, ho, rfl⟩, fun _ _ _ => rfl⟩

theorem Copying.treeKept (hapart : Apart oldPrefix newPrefix) {t : Vfs} (h : Copying newPrefix s t) :
    TreeKept oldPrefix newPrefix s.bucket t.bucket := by
  refine ⟨?_, fun key _ hnew => h.outside key hnew⟩
  intro suffix o ho
  exact Or.inl ⟨o, (h.outside _ (hapart.old_append suffix)).trans ho, rfl⟩

theorem Deleting.treeKept {keys : List Str} {t : Vfs}
    (hkeys : ∀ suffix, s.bucket (oldPrefix ++ suffix) ≠ none → oldPrefix ++ suffix ∈ keys)
    (hunder : ∀ key ∈ keys, oldPrefix <+: key) (h : Deleting oldPrefix newPrefix keys s t) :
    TreeKept oldPrefix newPrefix s.bucket t.bucket := by
  refine ⟨?_, ?_⟩
  · intro suffix o ho
    exact Or.inr (h.copies suffix o (hkeys suffix (by simp [ho])) ho)
  · intro key hold hnew
    exact h.untouched key hnew fun hmem => hold (hunder key hmem)

theorem Deleted.treeMoved (hapart : Apart oldPrefix newPrefix) {keys : List Str} {t : Vfs}
    (hkeys : ∀ suffix, s.bucket (oldPrefix ++ suffix) ≠ none → oldPrefix ++ suffix ∈ keys)
    (h : Deleted oldPrefix newPrefix keys s keys t) :
    TreeMoved oldPrefix newPrefix s.bucket t.bucket := by
  refine ⟨?_, ?_⟩
  · intro suffix o ho
    exact h.copies suffix o (hkeys suffix (by simp [ho])) ho
  · intro suffix
    by_cases hmem : oldPrefix ++ suffix ∈ keys
    · exact h.gone _ hmem
    · rw [h.untouched _ (hapart.old_append suffix) hmem]
      by_contra hne
      exact hmem (hkeys suffix hne)

/-- What a true listing gives the rename: all the keys of the subtree, or an error. -/
theorem listedKeys_of_trueListing (hglob : hasGlobCharacter oldPrefix = false)
    (hlist : TrueListing cfg io s.bucket oldPrefix) :
    (∃ e, Vfs.listedKeys io.listAll s = (.error e, s)) ∨
      ∃ keys, Vfs.listedKeys io.listAll s = (.ok keys, s) ∧ (∀ key ∈ keys, oldPrefix <+: key) ∧
        ∀ suffix, s.bucket (oldPrefix ++ suffix) ≠ none → oldPrefix ++ suffix ∈ keys := by
  obtain ⟨s3, enc, pages, henc, hanswers, hpages, hall⟩ := hlist
  have hsound : ∀ page, .ok page ∈ pages → ∀ c ∈ page.contents,
      ∃ key, c.shownKey? = some key ∧ oldPrefix <+: key := by
    intro page hpage c hc
    obtain ⟨key, hkey, hne, hcov⟩ := hpages.sound page hpage c hc
    refine ⟨key, ?_, (covers_treeUrl hglob).mp hcov⟩
    rw [Entry.shownKey?, hkey, Option.map_some, henc key hne hcov]
  rw [hall, S3.list_of_answers hanswers rfl, listV2]
  rcases listedKeys_listV2Go hglob hpages.commonPrefixes hsound hpages.errors false s with
    hfail | ⟨hnone, keys, hkeys, hmem⟩
  · exact Or.inl hfail
  · refine Or.inr ⟨keys, hkeys, ?_, ?_⟩
    · intro key hkey
      obtain ⟨page, hpage, c, hc, hckey⟩ := (hmem key).mp hkey
      obtain ⟨key', hkey', hpre⟩ := hsound page hpage c hc
      obtain rfl : key' = key := Option.some.inj (hkey'.symm.trans hckey)
      exact hpre
    · intro suffix hne
      have hcov : (listV2Request (cfg.treeUrl oldPrefix)).Covers (oldPrefix ++ suffix) :=
        (covers_treeUrl hglob).mpr (List.prefix_append oldPrefix suffix)
      obtain ⟨page, hpage, c, hc, hkey⟩ := hpages.complete hnone _ hne hcov
      refine (hmem _).mpr ⟨page, hpage, c, hc, ?_⟩
      rw [Entry.shownKey?, hkey, Option.map_some, henc _ hne hcov]

/-- **The requests of a directory rename.** -/
theorem moveTree_spec (name : Str) (hapart : Apart oldPrefix newPrefix)
    (hglob : hasGlobCharacter oldPrefix = false) (hlist : TrueListing cfg io s.bucket oldPrefix) :
    TreeKept oldPrefix newPrefix s.bucket
        (Vfs.moveTree cfg io name oldPrefix newPrefix s).2.bucket ∧
      ((Vfs.moveTree cfg io name oldPrefix newPrefix s).1 = .ok () →
        TreeMoved oldPrefix newPrefix s.bucket
          (Vfs.moveTree cfg io name oldPrefix newPrefix s).2.bucket) := by
  have hprefix := prefixExists_run cfg io.list oldPrefix s
  cases hexists : Vfs.prefixExists cfg io.list oldPrefix s with
  | mk r t =>
    rw [hexists] at hprefix
    obtain rfl : t = s := hprefix
    cases r with
    | error e =>
      rw [show Vfs.moveTree cfg io name oldPrefix newPrefix t = _ from bind_error hexists]
      exact ⟨treeKept_refl _, by simp⟩
    | ok found =>
      rw [show Vfs.moveTree cfg io name oldPrefix newPrefix t = _ from bind_ok hexists]
      cases found with
      | false => exact ⟨treeKept_refl _, by simp⟩
      | true =>
        simp only [Bool.not_true, Bool.false_eq_true, if_false]
        rcases listedKeys_of_trueListing hglob hlist with ⟨e, he⟩ | ⟨keys, hkeys, hunder, hcomplete⟩
        · rw [bind_error he]
          exact ⟨treeKept_refl _, by simp⟩
        · rw [bind_ok hkeys]
          have htriple : Triple (· = t) (do
              Vfs.copyKeys cfg io oldPrefix newPrefix keys
              Vfs.deleteKeys cfg io keys : VfsM Unit)
              (fun _ => Deleted oldPrefix newPrefix keys t keys)
              (fun _ u => TreeKept oldPrefix newPrefix t.bucket u.bucket) := by
            refine Triple.bind (Q := fun _ => Copied oldPrefix newPrefix t keys) ?_ ?_
            · exact (triple_copyKeys hapart hunder).conseq (fun _ h => h) (fun _ _ h => h)
                fun _ _ h => h.treeKept hapart
            · intro _
              exact (triple_deleteKeys hapart hunder).conseq (fun _ h => h) (fun _ _ h => h)
                fun _ _ h => h.treeKept hcomplete hunder
          have hrun := htriple t rfl
          split at hrun
          · rename_i heq
            rw [heq]
            exact ⟨hrun.toDeleting.treeKept hcomplete hunder, fun _ => hrun.treeMoved hapart hcomplete⟩
          · rename_i heq
            rw [heq]
            exact ⟨hrun, by simp⟩

/-- A rename that is not one of a file. -/
theorem rename_dir {parent newparent : Nat} {name newname : Str} {p np : Node}
    (hp : s.inodes.get parent = some p) (hnp : s.inodes.get newparent = some np) {e : MountError}
    (hstat : (Vfs.stat io.stat (cfg.url (p.key ++ name)) s).1 = .error e) :
    Vfs.rename cfg io parent name newparent newname s =
      if e.isNotFound then
        Vfs.renameDir cfg io parent newparent name (p.key ++ name ++ ['/'])
          (np.key ++ newname ++ ['/']) s
      else (.error e, s) := by
  rw [show Vfs.rename cfg io parent name newparent newname s = _ from bind_ok (node_ok hp)]
  rw [bind_ok (node_ok hnp)]
  simp only [cfg.objUrl_eq, ofExcept_ok_bind]
  rw [attempt_bind, stat_run, hstat]
  dsimp only
  cases e.isNotFound with
  | true => rfl
  | false => rfl

/-- The table changes only after the last request. -/
theorem renameDir_cases (cfg : VfsConfig) (io : Io) (s : Vfs) (parent newparent : Nat)
    (name oldPrefix newPrefix : Str) :
    (∃ e t, Vfs.moveTree cfg io name oldPrefix newPrefix s = (.error e, t) ∧
      Vfs.renameDir cfg io parent newparent name oldPrefix newPrefix s = (.error e, t) ∧
      t.inodes = s.inodes) ∨
    ∃ t u, Vfs.moveTree cfg io name oldPrefix newPrefix s = (.ok (), t) ∧
      Vfs.renameDir cfg io parent newparent name oldPrefix newPrefix s = (.ok (), u) ∧
      u.bucket = t.bucket := by
  have hbucket : UpToBucket s (Vfs.moveTree cfg io name oldPrefix newPrefix s).2 :=
    (keeps_moveTree (upToBucket_bucketFree s) name oldPrefix newPrefix).snd ⟨s.bucket, rfl⟩
  cases hmove : Vfs.moveTree cfg io name oldPrefix newPrefix s with
  | mk r t =>
    rw [hmove] at hbucket
    obtain ⟨b, rfl⟩ := hbucket
    cases r with
    | error e => exact Or.inl ⟨e, _, rfl, bind_error hmove, rfl⟩
    | ok x =>
      obtain ⟨v, hv, a, d, z, rfl⟩ := rekeyTree_run io oldPrefix newPrefix { s with bucket := b }
      rw [show Vfs.renameDir cfg io parent newparent name oldPrefix newPrefix s = _ from
        bind_ok hmove, bind_ok hv]
      exact Or.inr ⟨_, _, rfl, rfl, rfl⟩

end Rename

/-- **A directory rename is crash safe.** Whatever fails, every object of the
directory is readable at its old or its new key, the rest of the bucket is
unchanged, and an error leaves the inode table alone; a rename that returns has
moved everything. -/
theorem directory_rename_crash_safe (cfg : VfsConfig) (io : Io) (s : Vfs) (parent newparent : Nat)
    (name newname : Str) (p np : Node) (hp : s.inodes.get parent = some p)
    (hnp : s.inodes.get newparent = some np)
    (hdir : ∀ obj, (Vfs.stat io.stat (cfg.url (p.key ++ name)) s).1 ≠ .ok obj)
    (hglob : hasGlobCharacter (p.key ++ name ++ ['/']) = false)
    (hapart : Apart (p.key ++ name ++ ['/']) (np.key ++ newname ++ ['/']))
    (hlist : TrueListing cfg io s.bucket (p.key ++ name ++ ['/'])) :
    let out := Vfs.rename cfg io parent name newparent newname s
    TreeKept (p.key ++ name ++ ['/']) (np.key ++ newname ++ ['/']) s.bucket out.2.bucket ∧
      (∀ e, out.1 = .error e → out.2.inodes = s.inodes) ∧
      (out.1 = .ok () →
        TreeMoved (p.key ++ name ++ ['/']) (np.key ++ newname ++ ['/']) s.bucket out.2.bucket) := by
  intro out
  cases hstat : (Vfs.stat io.stat (cfg.url (p.key ++ name)) s).1 with
  | ok obj => exact absurd hstat (hdir obj)
  | error e =>
    have hout : out = _ := rename_dir hp hnp hstat
    cases hnotFound : e.isNotFound with
    | false =>
      rw [hout, hnotFound]
      exact ⟨treeKept_refl _, fun _ _ => rfl, by simp⟩
    | true =>
      rw [hnotFound, if_pos rfl] at hout
      obtain ⟨hkept, hmoved⟩ := moveTree_spec name hapart hglob hlist
      rcases renameDir_cases cfg io s parent newparent name (p.key ++ name ++ ['/'])
        (np.key ++ newname ++ ['/']) with
        ⟨e', t, hmove, hrun, hinodes⟩ | ⟨t, u, hmove, hrun, hbucket⟩
      · rw [hout, hrun]
        rw [hmove] at hkept
        exact ⟨hkept, fun _ _ => hinodes, by simp⟩
      · rw [hout, hrun, hbucket]
        rw [hmove] at hkept hmoved
        exact ⟨hkept, by simp, fun _ => hmoved rfl⟩

/-! ## A concrete rename -/

namespace DirRename

/-- A bucket with two objects, in the directory `d`. -/
def bucket (key : Str) : Option Stored :=
  if key = "d/x".toList then some ⟨[1], some 0⟩
  else if key = "d/y".toList then some ⟨[2, 3], some 0⟩
  else none

def page : Page where
  contents := ["d/x", "d/y"].map fun k => { key := some (urlEncode k.toList) }

/-- A server with one page. -/
def server : S3 where
  listPages _ := [.ok page]
  listV1 _ := .error .noObjectFound
  listVersions _ := .error .noObjectFound
  headObject _ _ _ := .ok none
  fuel := 0

/-- The copy of the second key fails, after it has been applied. -/
def io : Io where
  list := [{ url := some (VfsConfig.sample.url "d/x".toList) }]
  listAll := server.list (VfsConfig.sample.treeUrl "d/".toList)
  copy n := if n = 1 then some (.msg "timeout".toList, true) else none

theorem key_cases {key : Str} (h : bucket key ≠ none) :
    key = "d/x".toList ∨ key = "d/y".toList := by
  by_contra hno
  rw [not_or] at hno
  exact h (by rw [bucket, if_neg hno.1, if_neg hno.2])

theorem trueListing : TrueListing .sample io bucket "d/".toList := by
  have hcovers : ∀ key, bucket key ≠ none →
      (listV2Request (VfsConfig.sample.treeUrl "d/".toList)).Covers key := by
    intro key hkey
    rw [covers_treeUrl (by decide)]
    rcases key_cases hkey with rfl | rfl <;> decide
  refine ⟨server, urlEncode, _, ?_, rfl, ⟨?_, ?_, ?_, ?_⟩, rfl⟩
  · intro key hkey _
    rcases key_cases hkey with rfl | rfl <;> decide +kernel
  · intro _ hpage
    obtain rfl := Except.ok.inj (List.mem_singleton.mp hpage)
    rfl
  · intro _ hpage c hc
    obtain rfl := Except.ok.inj (List.mem_singleton.mp hpage)
    rcases List.mem_pair.mp hc with rfl | rfl
    · exact ⟨"d/x".toList, rfl, by decide, hcovers _ (by decide)⟩
    · exact ⟨"d/y".toList, rfl, by decide, hcovers _ (by decide)⟩
  · intro _ key hkey _
    refine ⟨_, List.mem_singleton.mpr rfl, ?_⟩
    rcases key_cases hkey with rfl | rfl
    · exact ⟨_, List.mem_pair.mpr (.inl rfl), rfl⟩
    · exact ⟨_, List.mem_pair.mpr (.inr rfl), rfl⟩
  · intro e he
    cases List.mem_singleton.mp he

end DirRename

/-- Renaming `d` to `e` fails at the second copy: both objects are still readable, and the
table has not changed. -/
theorem directory_rename_crash_safe_sample :
    ∃ e, (Vfs.rename .sample DirRename.io rootInode "d".toList rootInode "e".toList
        (.new [] DirRename.bucket)).1 = .error e ∧
      TreeKept "d/".toList "e/".toList DirRename.bucket
        (Vfs.rename .sample DirRename.io rootInode "d".toList rootInode "e".toList
          (.new [] DirRename.bucket)).2.bucket ∧
      (Vfs.rename .sample DirRename.io rootInode "d".toList rootInode "e".toList
        (.new [] DirRename.bucket)).2.inodes = (Vfs.new [] DirRename.bucket).inodes := by
  have hfails : (Vfs.rename .sample DirRename.io rootInode "d".toList rootInode "e".toList
      (.new [] DirRename.bucket)).1 = .error (.storage (.msg "timeout".toList)) := by
    decide +kernel
  have hroot : (Vfs.new [] DirRename.bucket).inodes.get rootInode = some ⟨[], .dir, rootInode⟩ := by
    decide +kernel
  obtain ⟨hkept, htable, -⟩ := directory_rename_crash_safe .sample DirRename.io
    (.new [] DirRename.bucket) rootInode rootInode "d".toList "e".toList ⟨[], .dir, rootInode⟩
    ⟨[], .dir, rootInode⟩ hroot hroot (fun obj hobj => by cases hobj) (by decide)
    ⟨by decide, by decide⟩ DirRename.trueListing
  exact ⟨_, hfails, hkept, htable _ hfails⟩

end Rs5cmd
