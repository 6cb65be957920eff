import Rs5cmd.Theorems.SyncMirror

/-!
# Syncing again, under any strategy

What a `sync --delete` between two buckets leaves, whichever strategy picks the copies,
and when a second one has nothing to do: a copy keeps the size of its source, but its time
and its entity tag are its own.
-/

namespace Rs5cmd

/-- The options with sizes as the only criterion. -/
def SyncArgs.bySize (args : SyncArgs) : SyncArgs :=
  { args with sizeOnly := true, checksum := false }

/-- `run` picks the strategy by its flags. -/
def SyncArgs.strategy (args : SyncArgs) : SyncStrategy := .new args.sizeOnly args.checksum

/-- No key that is listed has a space, which a listing shows as `+`. -/
structure Spaceless (src dst : Url) (st : Store) : Prop where
  base : ' ' ∉ dst.path
  source : ∀ o ∈ (st src.bucket).objs, src.keyPrefix <+: o.key → ' ' ∉ o.key
  dest : ∀ o ∈ (st dst.bucket).objs, dst.path <+: o.key → ' ' ∉ o.key

/-- What the source has at a relative path. -/
def sourceAt (src : Url) (st : Store) (r : Str) : Option StoredObject :=
  if src.isMatch (treeBase src ++ r) then (st src.bucket).find (treeBase src ++ r) else none

/-- What the destination has at a relative path. -/
def destAt (dst : Url) (st : Store) (r : Str) : Option StoredObject :=
  (st dst.bucket).find (dst.path ++ r)

/-- Whether an object is copied over what the destination has in its place. -/
def copies (strategy : SyncStrategy) (src dst : Url) (o : StoredObject)
    (d : Option StoredObject) : Bool :=
  Copies strategy (o.listed src) (d.map fun d => d.listed (destListing dst))

/-- **What a sync leaves.** The source is as it was, and at each relative path the destination
has what the source has there: a copy where the strategy asked for one, and else what was
there before. -/
structure SyncLeaves (strategy : SyncStrategy) (src dst : Url) (stamp : Url → CopyStamp)
    (st st' : Store) :
    Prop where
  source : st' src.bucket = st src.bucket
  dest : ∀ r, destAt dst st' r = (sourceAt src st r).bind fun o =>
    if copies strategy src dst o (destAt dst st r) then
      some (o.copied (stamp (dst.join r)) (dst.path ++ r))
    else destAt dst st r

section Again

variable {src dst : Url} {args : SyncArgs} {strategy : SyncStrategy} {st st' : Store}
  {stamp : Url → CopyStamp} {source dest : ObjectMap} {r : Str}

/-! ## The maps -/

/-- Without spaces, a map is what the bucket has. -/
theorem MapOf.getElem?_eq {w : Url} {keep : StoredObject → Prop} {b : Bucket} {m : ObjectMap}
    (hm : MapOf w keep b.objs m) (hw : IsPattern w)
    (hkeep : ∀ o ∈ b.objs, w.isMatch o.key = true → keep o)
    (hspace : ∀ o ∈ b.objs, w.keyPrefix <+: o.key → ' ' ∉ o.key) (r : Str) :
    m[r]? = (if w.isMatch (treeBase w ++ r) then b.find (treeBase w ++ r) else none).map
      fun o => o.listed w := by
  cases hr : m[r]? with
  | some obj =>
    obtain ⟨o, ho, -, hshown, rfl⟩ := hm.sound r obj hr
    have hself := shownKey_eq_self.mpr (hspace o ho hshown.covered)
    have hkey : o.key = treeBase w ++ r := hself.symm.trans hshown.shown
    have hmatch := hshown.isMatch
    rw [hself, hkey] at hmatch
    rw [if_pos hmatch, Bucket.find_eq_some.mpr ⟨ho, hkey⟩]
    rfl
  | none =>
    split
    · rename_i hmatch
      cases hfind : b.find (treeBase w ++ r) with
      | none => rfl
      | some o =>
        obtain ⟨ho, hkey⟩ := Bucket.find_eq_some.mp hfind
        rw [← hkey] at hmatch
        have hshown := hw.shownAt_self hkey hmatch
          (hspace o ho (hw.keyPrefix_of_isMatch hmatch))
        exact absurd (hm.complete o ho (hkeep o ho hmatch) r hshown) (not_mem_of_getElem? hr)
    · rfl

/-- The maps of the two sides. -/
structure MapsOf (src dst : Url) (st : Store) (source dest : ObjectMap) : Prop where
  source : ∀ r : Str, source[r]? = (sourceAt src st r).map fun o => o.listed src
  dest : ∀ r : Str, dest[r]? = (destAt dst st r).map fun o => o.listed (destListing dst)

/-- **The plan under any strategy** is made of the maps of what is stored. -/
theorem exists_mapsOf (h : Mirroring src dst args.bySize) (hadm : Admissible src dst st)
    (hspace : Spaceless src dst st) {bs bd : Backend} (hs : bs.Hosts st src)
    (hd : bd.HostsDest st dst) :
    ∃ source dest, MapsOf src dst st source dest ∧
      syncPlan bs bd src dst args noFilters =
        .ok (partition args.strategy dst true true source dest) := by
  obtain ⟨s3, hs3, hserve⟩ := hs
  obtain ⟨s3', hs3', hserve'⟩ := hd _ h.listing
  obtain ⟨o, ho, hmatch⟩ := hadm.matched
  have hshown : ∃ r, ShownAt src o r := by
    have hself := shownKey_eq_self.mpr (hspace.source o ho (h.source.keyPrefix_of_isMatch hmatch))
    obtain ⟨x, -, -, hshown⟩ := h.source.shownAt_tail (h.source.keyPrefix_of_isMatch hmatch)
      (by rw [hself]; exact hmatch)
    exact ⟨_, hshown⟩
  obtain ⟨x, hshown⟩ := hshown
  obtain ⟨source, hsource⟩ := exists_collectSourceObjects h.source hserve hs3 ho hshown args
  have hmap := collectSourceObjects_mapOf h.source hserve hs3 hadm.noSourceBase hsource
  obtain ⟨dest, hdest, hmap'⟩ := collectDestObjects_mapOf h.dest hserve' hs3'
    (by rw [h.treeBase_dest]; exact hadm.noDestBase) h.listing
  have hbatch : isSourceBatch bs src = .ok true := by
    rw [isSourceBatch, if_pos h.srcWildcard]
  have hgroups := syncGroups_of_collect hbatch hsource hdest
  have hdelete : args.delete = true := h.delete
  have huncapped : args.maxDelete = none := h.uncapped
  refine ⟨source, dest, ⟨?_, ?_⟩, ?_⟩
  · apply hmap.getElem?_eq h.source _ hspace.source
    intro o ho hmatch
    rw [skipGlacier, hadm.noGlacier o ho hmatch, Bool.and_false]
  · intro r
    have hpre : ∀ o ∈ (st dst.bucket).objs, (destListing dst).keyPrefix <+: o.key → ' ' ∉ o.key := by
      intro o ho hpre
      rw [show (destListing dst).keyPrefix = _ from h.literalPart] at hpre
      exact hspace.dest o ho hpre
    have hread := hmap'.getElem?_eq h.dest (fun _ _ _ => trivial) hpre r
    rw [h.treeBase_dest, if_pos (h.isMatch_dest r)] at hread
    exact hread
  · rw [syncPlan, hgroups, huncapped, hdelete]
    rfl

/-! ## The plan by relative path -/

/-- What the source has at a relative path is listed there. -/
theorem shownAt_of_sourceAt (hw : IsPattern src)
    (hspace : ∀ o ∈ (st src.bucket).objs, src.keyPrefix <+: o.key → ' ' ∉ o.key) {o : StoredObject}
    (ho : sourceAt src st r = some o) :
    o ∈ (st src.bucket).objs ∧ o.key = treeBase src ++ r ∧ ' ' ∉ o.key ∧ ShownAt src o r := by
  unfold sourceAt at ho
  split at ho
  · rename_i hmatch
    obtain ⟨hmem, hkey⟩ := Bucket.find_eq_some.mp ho
    rw [← hkey] at hmatch
    have hno := hspace o hmem (hw.keyPrefix_of_isMatch hmatch)
    exact ⟨hmem, hkey, hno, hw.shownAt_self hkey hmatch hno⟩
  · cases ho

/-- A plan, by relative path: what it copies under the strategy, and what it deletes. -/
structure PlanAt (strategy : SyncStrategy) (src dst : Url) (st : Store) (plan : SyncPlan) :
    Prop where
  copy : ∀ p : Url × Url, p ∈ plan.toCopy ↔ ∃ r o, sourceAt src st r = some o ∧
    copies strategy src dst o (destAt dst st r) = true ∧ (o.listed src).url = some p.1 ∧
    p.2 = dst.join r
  delete : ∀ u ∈ plan.toDelete, ∃ r, (destAt dst st r).isSome = true ∧ sourceAt src st r = none ∧
    u.bucket = dst.bucket ∧ u.path = dst.path ++ r
  deleted : ∀ r, (destAt dst st r).isSome = true → sourceAt src st r = none →
    ∃ u ∈ plan.toDelete, u.path = dst.path ++ r

theorem MapsOf.planAt (hm : MapsOf src dst st source dest) (h : Mirroring src dst args.bySize)
    (hadm : Admissible src dst st) (hspace : Spaceless src dst st) (strategy : SyncStrategy) :
    PlanAt strategy src dst st (partition strategy dst true true source dest) := by
  have hurls : HasUrls source := by
    intro r obj hr
    rw [hm.source r] at hr
    obtain ⟨o, -, rfl⟩ := Option.map_eq_some_iff.mp hr
    rfl
  have hgen : ∀ u : Url, generateDestinationUrl u dst true = dst.join u.relative := by
    intro u
    unfold generateDestinationUrl objname
    rcases h.dstDir with hb | hp
    · simp [h.dstRemote, hb]
    · simp [h.dstRemote, hp]
  have hlisted : ∀ {r : Str} {o : StoredObject} {u : Url}, sourceAt src st r = some o →
      (o.listed src).url = some u → u.relative = r := by
    intro r o u ho hu
    obtain ⟨hmem, -, -, hshown⟩ := shownAt_of_sourceAt h.source hspace.source ho
    obtain ⟨v, hv, -, -, -, hrel⟩ := relative_listed h.source hshown (hadm.noSourceBase o hmem)
    rw [Option.some.inj (hu.symm.trans hv)]
    exact hrel
  have hdestUrl : ∀ {r : Str} {d : StoredObject} {u : Url}, destAt dst st r = some d →
      (d.listed (destListing dst)).url = some u →
        u.bucket = dst.bucket ∧ u.path = dst.path ++ r := by
    intro r d u hd hu
    obtain ⟨hmem, hkey⟩ := Bucket.find_eq_some.mp hd
    obtain rfl := Option.some.inj hu
    have hno := hspace.dest d hmem ⟨r, hkey.symm⟩
    exact ⟨rfl, (shownKey_eq_self.mpr hno).trans hkey⟩
  refine ⟨fun p => ?_, fun u hu => ?_, fun r hr hnone => ?_⟩
  · rw [mem_toCopy hurls]
    constructor
    · rintro ⟨r, obj, hr, hu, htarget, hcopy⟩
      rw [hm.source r] at hr
      obtain ⟨o, ho, rfl⟩ := Option.map_eq_some_iff.mp hr
      rw [hm.dest r] at hcopy
      exact ⟨r, o, ho, hcopy, hu, by rw [htarget, hgen, hlisted ho hu]⟩
    · rintro ⟨r, o, ho, hcopy, hu, htarget⟩
      refine ⟨r, o.listed src, ?_, hu, ?_, ?_⟩
      · rw [hm.source r, ho]
        rfl
      · rw [htarget, hgen, hlisted ho hu]
      · rw [hm.dest r]
        exact hcopy
  · obtain ⟨r, obj, hr, hobj, hnone⟩ := (mem_toDelete hurls).mp hu
    rw [hm.dest r] at hr
    rw [hm.source r, Option.map_eq_none_iff] at hnone
    obtain ⟨d, hd, rfl⟩ := Option.map_eq_some_iff.mp hr
    exact ⟨r, by rw [hd]; rfl, hnone, hdestUrl hd hobj⟩
  · obtain ⟨d, hd⟩ := Option.isSome_iff_exists.mp hr
    refine ⟨_, (mem_toDelete hurls).mpr ⟨r, d.listed (destListing dst), ?_, rfl, ?_⟩,
      (hdestUrl hd rfl).2⟩
    · rw [hm.dest r, hd]
      rfl
    · rw [hm.source r, hnone]
      rfl

/-! ## The execution -/

theorem join_path (h : Mirroring src dst args.bySize) (r : Str) :
    (dst.join r).path = dst.path ++ r := by
  rw [Url.join, if_pos h.dstRemote]

/-- Where a copy reads and where it writes. -/
theorem PlanAt.copy_cases {plan : SyncPlan} (hp : PlanAt strategy src dst st plan)
    (h : Mirroring src dst args.bySize) (hspace : Spaceless src dst st) {p : Url × Url}
    (hmem : p ∈ plan.toCopy) :
    ∃ r o, sourceAt src st r = some o ∧ copies strategy src dst o (destAt dst st r) = true ∧
      p.1.bucket = src.bucket ∧ (st src.bucket).find p.1.path = some o ∧ p.2 = dst.join r ∧
      (o.listed src).url = some p.1 := by
  obtain ⟨r, o, ho, hcopy, hu, htarget⟩ := (hp.copy p).mp hmem
  obtain ⟨hobj, -, hno, -⟩ := shownAt_of_sourceAt h.source hspace.source ho
  have hpath : p.1.path = o.key := by
    rw [← Option.some.inj hu]
    exact shownKey_eq_self.mpr hno
  have hbucket : p.1.bucket = src.bucket := by
    rw [← Option.some.inj hu]
  refine ⟨r, o, ho, hcopy, hbucket, ?_, htarget, hu⟩
  rw [hpath]
  exact Bucket.find_eq_some.mpr ⟨hobj, rfl⟩

theorem PlanAt.between {plan : SyncPlan} (hp : PlanAt strategy src dst st plan)
    (h : Mirroring src dst args.bySize) (hspace : Spaceless src dst st) {cs : List (Url × Url)}
    (hcs : cs.Perm plan.toCopy) : Store.Between src.bucket dst.bucket cs := by
  intro p hmem
  obtain ⟨r, o, -, -, hb, -, htarget, -⟩ := hp.copy_cases h hspace (hcs.mem_iff.mp hmem)
  exact ⟨hb, by rw [htarget]; rfl⟩

/-- The plan can be executed: what it copies is there. -/
theorem PlanAt.exists_executes {plan : SyncPlan} (hp : PlanAt strategy src dst st plan)
    (h : Mirroring src dst args.bySize) (hspace : Spaceless src dst st) (stamp : Url → CopyStamp) :
    ∃ st', Executes plan stamp st st' := by
  have hfound : ∀ p ∈ plan.toCopy, (st src.bucket).find p.1.path ≠ none := by
    intro p hmem
    obtain ⟨r, o, -, -, -, hfind, -⟩ := hp.copy_cases h hspace hmem
    rw [hfind]
    exact Option.some_ne_none o
  obtain ⟨mid, hmid⟩ : ∃ mid, plan.toCopy.foldlM (Store.copy stamp) st = some mid :=
    Store.exists_foldlM_copy h.buckets (hp.between h hspace (List.Perm.refl _)) hfound
  refine ⟨plan.toDelete.foldl Store.delete mid,
    executes_iff.mpr ⟨plan.toCopy, plan.toDelete, .refl _, .refl _, ?_⟩⟩
  rw [Store.execute, hmid]
  rfl

/-- **Execution**: in whatever order the operations take effect. -/
theorem PlanAt.synced {plan : SyncPlan} (hp : PlanAt strategy src dst st plan)
    (h : Mirroring src dst args.bySize) (hspace : Spaceless src dst st)
    (hex : Executes plan stamp st st') : SyncLeaves strategy src dst stamp st st' := by
  obtain ⟨cs, ds, hcs, hds, hrun⟩ := executes_iff.mp hex
  obtain ⟨mid, hmid, rfl⟩ := Option.map_eq_some_iff.mp hrun
  obtain ⟨hother, hkept, hcopied⟩ := Store.foldlM_copy h.buckets (hp.between h hspace hcs) hmid
  have hbucket : ∀ u ∈ ds, u.bucket = dst.bucket := by
    intro u hu
    obtain ⟨r, -, -, hb, -⟩ := hp.delete u (hds.mem_iff.mp hu)
    exact hb
  obtain ⟨hother', hfind⟩ := Store.foldl_delete hbucket mid
  -- no path is that of two relative paths
  have htarget : ∀ {p : Url × Url} {r : Str}, p ∈ plan.toCopy → p.2.path = dst.path ++ r →
      ∃ o, sourceAt src st r = some o ∧ copies strategy src dst o (destAt dst st r) = true ∧
        (st src.bucket).find p.1.path = some o ∧ p.2 = dst.join r := by
    intro p r hmem hpath
    obtain ⟨r', o, ho, hcopy, -, hfound, hjoin, -⟩ := hp.copy_cases h hspace hmem
    rw [hjoin, join_path h] at hpath
    obtain rfl := List.append_cancel_left hpath
    exact ⟨o, ho, hcopy, hfound, hjoin⟩
  have hdeleted : ∀ r, (∃ u ∈ ds, u.path = dst.path ++ r) ↔
      (destAt dst st r).isSome = true ∧ sourceAt src st r = none := by
    intro r
    constructor
    · rintro ⟨u, hu, hpath⟩
      obtain ⟨r', hsome, hnone, -, hpath'⟩ := hp.delete u (hds.mem_iff.mp hu)
      obtain rfl := List.append_cancel_left (hpath.symm.trans hpath')
      exact ⟨hsome, hnone⟩
    · rintro ⟨hsome, hnone⟩
      obtain ⟨u, hu, hpath⟩ := hp.deleted r hsome hnone
      exact ⟨u, hds.mem_iff.mpr hu, hpath⟩
  have hleft : ∀ r, (∀ p ∈ plan.toCopy, p.2.path ≠ dst.path ++ r) →
      (mid dst.bucket).find (dst.path ++ r) = destAt dst st r :=
    fun r hr => hkept _ fun p hmem => hr p (hcs.mem_iff.mp hmem)
  refine ⟨?_, fun r => ?_⟩
  · rw [hother' _ h.buckets, hother _ h.buckets]
  rw [destAt, hfind]
  cases ho : sourceAt src st r with
  | none =>
    have hnocopy : ∀ p ∈ plan.toCopy, p.2.path ≠ dst.path ++ r := by
      intro p hmem hpath
      obtain ⟨o, ho', -⟩ := htarget hmem hpath
      rw [ho] at ho'
      cases ho'
    rw [hleft r hnocopy]
    cases hd : destAt dst st r with
    | none => exact ite_self _
    | some d =>
      have hgone : ∃ u ∈ ds, u.path = dst.path ++ r := (hdeleted r).mpr ⟨by rw [hd]; rfl, ho⟩
      rw [if_pos hgone]
      rfl
  | some o =>
    have hstays : ¬ ∃ u ∈ ds, u.path = dst.path ++ r := by
      intro hgone
      have hnone := ((hdeleted r).mp hgone).2
      rw [ho] at hnone
      cases hnone
    rw [if_neg hstays, Option.bind_some]
    by_cases hcopy : copies strategy src dst o (destAt dst st r) = true
    · rw [if_pos hcopy]
      have hmem := (hp.copy (_, dst.join r)).mpr ⟨r, o, ho, hcopy, rfl, rfl⟩
      obtain ⟨q, hq, hpath, o', ho', hfinal⟩ := hcopied _ (hcs.mem_iff.mpr hmem)
      rw [join_path h] at hpath hfinal
      obtain ⟨o'', ho'', -, hfound, hjoin⟩ := htarget (hcs.mem_iff.mp hq) hpath
      obtain rfl := Option.some.inj (ho.symm.trans ho'')
      obtain rfl := Option.some.inj (hfound.symm.trans ho')
      rw [hfinal, hjoin, join_path h]
    · rw [if_neg hcopy]
      refine hleft r fun p hmem hpath => hcopy ?_
      obtain ⟨o', ho', hcopy', -⟩ := htarget hmem hpath
      obtain rfl := Option.some.inj (ho.symm.trans ho')
      exact hcopy'

/-! ## The second plan -/

/-- Every object of the destination has its original. -/
theorem SyncLeaves.origin (hs : SyncLeaves strategy src dst stamp st st') {o : StoredObject}
    (ho : o ∈ (st' dst.bucket).objs) {r : Str} (hkey : o.key = dst.path ++ r) :
    ∃ o', sourceAt src st r = some o' := by
  have hread := hs.dest r
  rw [destAt, Bucket.find_eq_some.mpr ⟨ho, hkey⟩] at hread
  obtain ⟨o', ho', -⟩ := Option.bind_eq_some_iff.mp hread.symm
  exact ⟨o', ho'⟩

theorem SyncLeaves.sourceAt (hs : SyncLeaves strategy src dst stamp st st') (r : Str) :
    sourceAt src st' r = sourceAt src st r := by
  unfold Rs5cmd.sourceAt
  rw [hs.source]

/-- What a sync leaves can be synced again. -/
theorem SyncLeaves.again (hs : SyncLeaves strategy src dst stamp st st')
    (h : Mirroring src dst args.bySize)
    (hadm : Admissible src dst st) (hspace : Spaceless src dst st) :
    Admissible src dst st' ∧ Spaceless src dst st' := by
  refine ⟨⟨?_, ?_, ?_, ?_⟩, hspace.base, ?_, ?_⟩
  · rw [hs.source]
    exact hadm.matched
  · rw [hs.source]
    exact hadm.noGlacier
  · rw [hs.source]
    exact hadm.noSourceBase
  · intro o ho hkey
    obtain ⟨o', ho'⟩ := hs.origin ho (hkey.trans (List.append_nil _).symm)
    obtain ⟨hmem, hkey', -⟩ := shownAt_of_sourceAt h.source hspace.source ho'
    exact hadm.noSourceBase o' hmem (hkey'.trans (List.append_nil _))
  · rw [hs.source]
    exact hspace.source
  · rintro o ho ⟨r, hr⟩
    obtain ⟨o', ho'⟩ := hs.origin ho hr.symm
    obtain ⟨-, hkey', hno, -⟩ := shownAt_of_sourceAt h.source hspace.source ho'
    rw [← hr, List.mem_append, not_or]
    refine ⟨hspace.base, fun hmem => hno ?_⟩
    rw [hkey']
    exact List.mem_append_right _ hmem

end Again

/-- The strategy does not ask for a copy again, given what marks it. -/
def Settles (strategy : SyncStrategy) (o : StoredObject) (stamp : CopyStamp) : Prop :=
  match strategy with
  | .sizeOnly => True
  | .sizeAndModification => fromSecs o.lastModified ≤ fromSecs stamp.lastModified
  | .checksum => trimQuotes o.etag ≠ [] ∧ '-' ∉ trimQuotes o.etag ∧
      trimQuotes stamp.etag = trimQuotes o.etag

theorem trimQuotes_trimQuotes (s : Str) : trimQuotes (trimQuotes s) = trimQuotes s := by
  have hhead : (trimQuotes s).dropWhile (· == '"') = trimQuotes s := by
    rw [List.dropWhile_eq_self_iff]
    intro hpos
    have hpre : trimQuotes s <+: s.dropWhile (· == '"') := List.rdropWhile_prefix _ _
    have hpos' : 0 < (s.dropWhile (· == '"')).length := lt_of_lt_of_le hpos hpre.length_le
    rw [hpre.getElem hpos]
    exact List.dropWhile_get_zero_not _ _ hpos'
  show Str.trimEndMatches '"' ((trimQuotes s).dropWhile (· == '"')) = trimQuotes s
  rw [hhead]
  exact List.rdropWhile_idempotent _ _

/-- A copy is made again unless it settles its source. -/
theorem copies_copied {strategy : SyncStrategy} {src dst : Url} {o : StoredObject}
    {stamp : CopyStamp}
    {key : Str} :
    copies strategy src dst o (some (o.copied stamp key)) = true ↔ ¬ Settles strategy o stamp := by
  show strategy.shouldSync (o.listed src) ((o.copied stamp key).listed (destListing dst)) = true ↔ _
  cases strategy with
  | sizeOnly =>
    have hsize : (o.copied stamp key).size = o.size := rfl
    simp [SyncStrategy.shouldSync, StoredObject.listed, Settles, hsize]
  | sizeAndModification =>
    have hsize : (o.copied stamp key).size = o.size := rfl
    have htime : (o.copied stamp key).lastModified = stamp.lastModified := rfl
    simp [SyncStrategy.shouldSync, SyncStrategy.isAfter, StoredObject.listed, Settles, hsize, htime]
  | checksum =>
    have htag : (o.copied stamp key).etag = stamp.etag := rfl
    simp only [SyncStrategy.shouldSync, StoredObject.listed, Settles, htag, trimQuotes_trimQuotes,
      Str.contains, Bool.or_eq_true, List.isEmpty_iff, decide_eq_true_eq, bne_iff_ne,
      List.singleton_infix_iff]
    grind

section Second

variable {src dst : Url} {args : SyncArgs} {strategy : SyncStrategy} {st st' : Store}
  {stamp : Url → CopyStamp} {plan plan' : SyncPlan}

/-- **The second plan**: nothing is deleted, and what is copied was copied before and did
not settle. -/
theorem SyncLeaves.second (hs : SyncLeaves strategy src dst stamp st st')
    (h : Mirroring src dst args.bySize) (hspace : Spaceless src dst st)
    (hp : PlanAt strategy src dst st plan) (hp' : PlanAt strategy src dst st' plan') :
    plan'.toDelete = [] ∧ ∀ p, p ∈ plan'.toCopy ↔ p ∈ plan.toCopy ∧
      ∃ o, (st src.bucket).find p.1.path = some o ∧ ¬ Settles strategy o (stamp p.2) := by
  refine ⟨?_, fun p => ?_⟩
  · rw [List.eq_nil_iff_forall_not_mem]
    intro u hu
    obtain ⟨r, hsome, hnone, -⟩ := hp'.delete u hu
    rw [hs.sourceAt] at hnone
    rw [hs.dest r, hnone] at hsome
    cases hsome
  constructor
  · intro hmem
    obtain ⟨r, o, ho, hcopy, hu, htarget⟩ := (hp'.copy p).mp hmem
    rw [hs.sourceAt] at ho
    rw [hs.dest r, ho, Option.bind_some] at hcopy
    by_cases hfirst : copies strategy src dst o (destAt dst st r) = true
    · rw [if_pos hfirst, copies_copied, ← htarget] at hcopy
      have hin : p ∈ plan.toCopy := (hp.copy p).mpr ⟨r, o, ho, hfirst, hu, htarget⟩
      obtain ⟨r', o', ho', -, -, hfind, htarget', -⟩ := hp.copy_cases h hspace hin
      have hr : r' = r := by
        have hpath := congrArg Url.path (htarget'.symm.trans htarget)
        rw [join_path h, join_path h] at hpath
        exact List.append_cancel_left hpath
      subst hr
      obtain rfl := Option.some.inj (ho.symm.trans ho')
      exact ⟨hin, o, hfind, hcopy⟩
    · rw [if_neg hfirst] at hcopy
      exact absurd hcopy hfirst
  · rintro ⟨hmem, o, hfind, hunsettled⟩
    obtain ⟨r, o', ho, hcopy, -, hfind', htarget, hu⟩ := hp.copy_cases h hspace hmem
    obtain rfl := Option.some.inj (hfind.symm.trans hfind')
    refine (hp'.copy p).mpr ⟨r, o, by rw [hs.sourceAt, ho], ?_, hu, htarget⟩
    rw [hs.dest r, ho, Option.bind_some, if_pos hcopy, copies_copied, ← htarget]
    exact hunsettled

end Second

/-- **Syncing again**: for two buckets without spaces in their keys and whichever strategy, a
plan made from any complete listings can be executed and any execution leaves, at each
relative path of the source, a copy where the strategy asked for one and what was there
where it did not, and nothing else. The plan made after it deletes nothing and makes again
exactly the copies that do not settle their sources. -/
theorem sync_again (src dst : Url) (args : SyncArgs) (st : Store)
    (h : Mirroring src dst args.bySize) (hadm : Admissible src dst st)
    (hspace : Spaceless src dst st) (bs bd : Backend) (hs : bs.Hosts st src)
    (hd : bd.HostsDest st dst) :
    ∃ plan, syncPlan bs bd src dst args noFilters = .ok plan ∧
      (∀ stamp, ∃ st', Executes plan stamp st st') ∧
      ∀ stamp st', Executes plan stamp st st' → SyncLeaves args.strategy src dst stamp st st' ∧
        ∀ bs' bd' : Backend, bs'.Hosts st' src → bd'.HostsDest st' dst →
          ∃ plan', syncPlan bs' bd' src dst args noFilters = .ok plan' ∧ plan'.toDelete = [] ∧
            ∀ p, p ∈ plan'.toCopy ↔ p ∈ plan.toCopy ∧ ∃ o, (st src.bucket).find p.1.path = some o ∧
              ¬ Settles args.strategy o (stamp p.2) := by
  obtain ⟨source, dest, hmaps, hplan⟩ := exists_mapsOf h hadm hspace hs hd
  have hp := hmaps.planAt h hadm hspace args.strategy
  refine ⟨_, hplan, hp.exists_executes h hspace, fun stamp st' hex => ?_⟩
  have hsynced := hp.synced h hspace hex
  refine ⟨hsynced, fun bs' bd' hs' hd' => ?_⟩
  obtain ⟨hadm', hspace'⟩ := hsynced.again h hadm hspace
  obtain ⟨source', dest', hmaps', hplan'⟩ := exists_mapsOf h hadm' hspace' hs' hd'
  exact ⟨_, hplan', hsynced.second h hspace hp (hmaps'.planAt h hadm' hspace' args.strategy)⟩

/-- By sizes and times: copies that are no older than their sources are not made again. -/
theorem sync_again_plain :
    let src := Url.ofString "s3://b/*"
    let dst := Url.ofString "s3://c/d/"
    let st := twoBuckets plainBucket staleBucket
    ∃ bs bd plan, bs.Hosts st src ∧ bd.HostsDest st dst ∧
      syncPlan bs bd src dst { delete := true } noFilters = .ok plan ∧
      ∃ st', Executes plan (fun _ => {}) st st' ∧
        SyncLeaves .sizeAndModification src dst (fun _ => {}) st st' ∧
        ∀ bs' bd' : Backend, bs'.Hosts st' src → bd'.HostsDest st' dst →
          syncPlan bs' bd' src dst { delete := true } noFilters = .ok ⟨[], []⟩ := by
  intro src dst st
  have hadm : Admissible src dst st :=
    ⟨by decide +kernel, by decide +kernel, by decide +kernel, by decide +kernel⟩
  have hspace : Spaceless src dst st := ⟨by decide +kernel, by decide +kernel, by decide +kernel⟩
  have htime : ∀ o ∈ (st src.bucket).objs, o.lastModified = 0 := by decide +kernel
  obtain ⟨bs, hs⟩ := exists_hosts mirroring_sample.source st
  obtain ⟨bd, hd⟩ := exists_hostsDest mirroring_sample st
  obtain ⟨plan, hplan, hexists, hall⟩ :=
    sync_again src dst { delete := true } st mirroring_sample hadm hspace bs bd hs hd
  obtain ⟨st', hex⟩ := hexists fun _ => {}
  obtain ⟨hsynced, hagain⟩ := hall _ _ hex
  refine ⟨bs, bd, plan, hs, hd, hplan, st', hex, hsynced, fun bs' bd' hs' hd' => ?_⟩
  obtain ⟨⟨copies, deletes⟩, hplan', hdelete, hcopy⟩ := hagain bs' bd' hs' hd'
  have hnone : copies = [] := by
    rw [List.eq_nil_iff_forall_not_mem]
    intro p hp
    obtain ⟨-, o, ho, hunsettled⟩ := (hcopy p).mp hp
    refine hunsettled ?_
    show fromSecs o.lastModified ≤ fromSecs 0
    exact Int.le_of_eq (congrArg fromSecs (htime o (Bucket.find_eq_some.mp ho).1))
  obtain rfl : deletes = [] := hdelete
  rw [hplan', hnone]

end Rs5cmd
