import Rs5cmd.Theorems.SyncListing
import Rs5cmd.Theorems.SyncExec

/-!
# `sync --delete` as mirroring

From the contents of two buckets through the listings, the plan, its execution
in any order and the plan made after it: when the destination mirrors the source
and the second plan has nothing to do.
-/

namespace Rs5cmd

/-! ## Executing a plan -/

/-- A run of the executor over the plan ends without a failure and leads from one
store to the other. Operations of one loop take effect in any order. -/
def Executes (plan : SyncPlan) (stamp : Url → CopyStamp) (st st' : Store) : Prop :=
  ∃ (job : SyncJob) (es : List SyncJob.Event) (s : SyncJob.State) (d : JoinLoop Url OpResult Tally),
    (job.toCopy = plan.toCopy ∧ job.toDelete = plan.toDelete ∧ job.maxDelete = none) ∧
      Machine.run job.step job.start es = some s ∧ s.result = some (.ok ()) ∧ s.deletes = some d ∧
      ∃ copies deletes, copies.Perm (s.copies.joined.map Prod.fst) ∧
        deletes.Perm (d.joined.map Prod.fst) ∧ st.execute stamp copies deletes = some st'

/-- A run that succeeds has executed every operation once. -/
theorem SyncJob.Inv.joined_of_ok {job : SyncJob} {s : SyncJob.State} (hs : job.Inv s)
    (hcap : job.overCap = false) (hr : s.result = some (.ok ())) :
    (s.copies.joined.map Prod.fst).Perm job.toCopy ∧
      ∃ d, s.deletes = some d ∧ (d.joined.map Prod.fst).Perm job.toDelete := by
  have hnostop : ∀ {α : Type} {entries : List (α × OpResult)}, AllOk entries →
      ∀ e ∈ entries, ¬ job.Stopping e.2 := by
    intro α entries hall e he hstop
    have hfine := hall e he
    rcases hstop with hfatal | ⟨-, hfailed⟩
    · rw [OpResult.isFailed_of_isFatal hfatal] at hfine
      cases hfine
    · rw [hfailed] at hfine
      cases hfine
  obtain ⟨hcopies, hdeletes⟩ := (hs.status hcap hr).mp rfl
  exact hs.complete hcap (by rw [hr]; rfl) (hnostop hcopies) fun d hd => hnostop (hdeletes d hd)

/-- What a successful execution does depends on the operations alone. -/
theorem executes_iff {plan : SyncPlan} {stamp : Url → CopyStamp} {st st' : Store} :
    Executes plan stamp st st' ↔ ∃ copies deletes, copies.Perm plan.toCopy ∧
      deletes.Perm plan.toDelete ∧ st.execute stamp copies deletes = some st' := by
  have huncapped : ∀ job : SyncJob, job.maxDelete = none → job.overCap = false := by
    intro job hnone
    rw [SyncJob.overCap, hnone]
  constructor
  · rintro ⟨job, es, s, d, ⟨hcopy, hdelete, hmax⟩, hrun, hr, hd, copies, deletes, hcs, hds, hex⟩
    obtain ⟨hjoined, d', hd', hjoined'⟩ := (SyncJob.run_inv hrun).joined_of_ok (huncapped job hmax) hr
    obtain rfl := Option.some.inj (hd.symm.trans hd')
    rw [hcopy] at hjoined
    rw [hdelete] at hjoined'
    exact ⟨copies, deletes, hcs.trans hjoined, hds.trans hjoined', hex⟩
  · rintro ⟨copies, deletes, hcs, hds, hex⟩
    let job : SyncJob := { toCopy := plan.toCopy, toDelete := plan.toDelete }
    obtain ⟨es, s, hrun, hr⟩ := SyncJob.exists_clean_run job rfl
    obtain ⟨hjoined, d, hd, hjoined'⟩ := (SyncJob.run_inv hrun).joined_of_ok rfl hr
    exact ⟨job, es, s, d, ⟨rfl, rfl, rfl⟩, hrun, hr, hd, copies, deletes,
      hcs.trans hjoined.symm, hds.trans hjoined'.symm, hex⟩

/-! ## Plans by relative path -/

/-- What a plan made of two maps copies and deletes, by relative path. -/
structure PlanOf (src dst : Url) (source dest : ObjectMap) (plan : SyncPlan) : Prop where
  copy : ∀ p ∈ plan.toCopy, ∃ (r : Str) (obj : Object), source[r]? = some obj ∧
    Copies .sizeOnly obj dest[r]? = true ∧ p.1.bucket = src.bucket ∧
    p.1.path = treeBase src ++ r ∧ p.2.bucket = dst.bucket ∧ p.2.path = dst.path ++ r
  copied : ∀ (r : Str) (obj : Object), source[r]? = some obj → Copies .sizeOnly obj dest[r]? = true →
    ∃ p ∈ plan.toCopy, p.2.path = dst.path ++ r
  delete : ∀ u ∈ plan.toDelete, ∃ r ∈ dest, source[r]? = none ∧ u.bucket = dst.bucket ∧
    u.path = dst.path ++ r
  deleted : ∀ r ∈ dest, source[r]? = none → ∃ u ∈ plan.toDelete, u.path = dst.path ++ r

section PlanOf

variable {src dst : Url} {source dest : ObjectMap} {plan : SyncPlan} {stamp : Url → CopyStamp}
  {st st' : Store}

theorem PlanOf.between (h : PlanOf src dst source dest plan) {copies : List (Url × Url)}
    (hcs : copies.Perm plan.toCopy) : Store.Between src.bucket dst.bucket copies := by
  intro p hp
  obtain ⟨r, obj, -, -, hb, -, hb', -⟩ := h.copy p (hcs.mem_iff.mp hp)
  exact ⟨hb, hb'⟩

/-- An execution splits into its copies and its deletions. -/
theorem PlanOf.execute_cases (h : PlanOf src dst source dest plan) (hne : src.bucket ≠ dst.bucket)
    (hex : Executes plan stamp st st') :
    ∃ mid : Store, (∀ c, c ≠ dst.bucket → st' c = st c) ∧
      (∀ key, (∀ p ∈ plan.toCopy, p.2.path ≠ key) →
        (mid dst.bucket).find key = (st dst.bucket).find key) ∧
      (∀ p ∈ plan.toCopy, ∃ q ∈ plan.toCopy, q.2.path = p.2.path ∧ ∃ o,
        (st src.bucket).find q.1.path = some o ∧
        (mid dst.bucket).find p.2.path = some (o.copied (stamp q.2) q.2.path)) ∧
      ∀ key, (st' dst.bucket).find key =
        if ∃ u ∈ plan.toDelete, u.path = key then none else (mid dst.bucket).find key := by
  obtain ⟨copies, deletes, hcs, hds, hrun⟩ := executes_iff.mp hex
  obtain ⟨mid, hmid, rfl⟩ := Option.map_eq_some_iff.mp hrun
  obtain ⟨hother, hkept, hcopied⟩ := Store.foldlM_copy hne (h.between hcs) hmid
  have hbucket : ∀ u ∈ deletes, u.bucket = dst.bucket := by
    intro u hu
    obtain ⟨r, -, -, hb, -⟩ := h.delete u (hds.mem_iff.mp hu)
    exact hb
  obtain ⟨hother', hfind⟩ := Store.foldl_delete hbucket mid
  refine ⟨mid, ?_, ?_, ?_, ?_⟩
  · intro c hc
    rw [hother' c hc, hother c hc]
  · intro key hkey
    exact hkept key fun p hp => hkey p (hcs.mem_iff.mp hp)
  · intro p hp
    obtain ⟨q, hq, hpath, o, ho, hfinal⟩ := hcopied p (hcs.mem_iff.mpr hp)
    exact ⟨q, hcs.mem_iff.mp hq, hpath, o, ho, hfinal⟩
  · intro key
    rw [hfind key]
    simp only [hds.mem_iff]

/-- No deletion strikes a source name. -/
theorem PlanOf.not_deleted (h : PlanOf src dst source dest plan) {r : Str}
    (hr : source[r]? ≠ none ∨ r ∉ dest) : ¬ ∃ u ∈ plan.toDelete, u.path = dst.path ++ r := by
  rintro ⟨u, hu, hpath⟩
  obtain ⟨r', hr', hnone, -, hpath'⟩ := h.delete u hu
  obtain rfl : r' = r := List.append_cancel_left (hpath'.symm.trans hpath)
  rcases hr with hr | hr
  · exact hr hnone
  · exact hr hr'

/-- A name that is copied ends up with the size of its source object, which has
to be there. -/
theorem PlanOf.execute_copied (h : PlanOf src dst source dest plan) (hne : src.bucket ≠ dst.bucket)
    (hex : Executes plan stamp st st') {r : Str} {obj : Object} (hr : source[r]? = some obj)
    (hcopy : Copies .sizeOnly obj dest[r]? = true) :
    ∃ size, (st src.bucket).sizeAt (treeBase src ++ r) = some size ∧
      (st' dst.bucket).sizeAt (dst.path ++ r) = some size := by
  obtain ⟨mid, -, -, hcopied, hfind⟩ := h.execute_cases hne hex
  obtain ⟨p, hp, hpath⟩ := h.copied r obj hr hcopy
  obtain ⟨q, hq, hqp, o, ho, hfinal⟩ := hcopied p hp
  obtain ⟨r', obj', -, -, -, hsource, -, htarget⟩ := h.copy q hq
  obtain rfl : r' = r := List.append_cancel_left (htarget.symm.trans (hqp.trans hpath))
  refine ⟨o.size, ?_, ?_⟩
  · rw [Bucket.sizeAt, ← hsource, ho]
    rfl
  · rw [Bucket.sizeAt, hfind, if_neg (h.not_deleted (.inl (by rw [hr]; simp))), ← hpath, hfinal]
    rfl

/-- A destination name that is no source name is gone. -/
theorem PlanOf.execute_deleted (h : PlanOf src dst source dest plan) (hne : src.bucket ≠ dst.bucket)
    (hex : Executes plan stamp st st') {r : Str} (hr : r ∈ dest) (hnone : source[r]? = none) :
    (st' dst.bucket).sizeAt (dst.path ++ r) = none := by
  obtain ⟨mid, -, -, -, hfind⟩ := h.execute_cases hne hex
  rw [Bucket.sizeAt, hfind, if_pos (h.deleted r hr hnone)]
  rfl

/-- Nothing else changes. -/
theorem PlanOf.execute_kept (h : PlanOf src dst source dest plan) (hne : src.bucket ≠ dst.bucket)
    (hex : Executes plan stamp st st') {r : Str}
    (hcopy : ∀ obj, source[r]? = some obj → Copies .sizeOnly obj dest[r]? = false)
    (hdel : source[r]? ≠ none ∨ r ∉ dest) :
    (st' dst.bucket).find (dst.path ++ r) = (st dst.bucket).find (dst.path ++ r) := by
  obtain ⟨mid, -, hkept, -, hfind⟩ := h.execute_cases hne hex
  rw [hfind, if_neg (h.not_deleted hdel)]
  refine hkept _ ?_
  intro p hp hpath
  obtain ⟨r', obj, hr', hyes, -, -, -, hpath'⟩ := h.copy p hp
  obtain rfl : r' = r := List.append_cancel_left (hpath'.symm.trans hpath)
  rw [hcopy obj hr'] at hyes
  cases hyes

theorem PlanOf.execute_source (h : PlanOf src dst source dest plan) (hne : src.bucket ≠ dst.bucket)
    (hex : Executes plan stamp st st') : st' src.bucket = st src.bucket := by
  obtain ⟨mid, hother, -⟩ := h.execute_cases hne hex
  exact hother src.bucket hne

end PlanOf

/-! ## The setting -/

/-- The client answers listings of `u` completely from the bucket of the store. -/
def Backend.Hosts (b : Backend) (st : Store) (u : Url) : Prop :=
  ∃ s3, b.newS3 u = .ok s3 ∧ Serves urlEncode (st u.bucket).objs s3 u

/-- The client of the destination answers the listing that `sync` asks for. -/
def Backend.HostsDest (b : Backend) (st : Store) (dst : Url) : Prop :=
  ∀ lu, Url.parse (listingPath dst) = .ok lu → b.Hosts st lu

/-- A remote wildcard source, the root of another bucket or a literal prefix in
it as the destination, `--delete`, and sizes as the only criterion. -/
structure Mirroring (src dst : Url) (args : SyncArgs) : Prop where
  srcParsed : ∃ raw, Url.parse raw = .ok src
  srcRemote : src.isRemote = true
  srcWildcard : src.isWildcard = true
  dstParsed : ∃ raw, Url.parse raw = .ok dst
  dstRemote : dst.isRemote = true
  dstLiteral : hasGlobCharacter dst.path = false
  dstDir : dst.isBucket = true ∨ dst.isPrefix = true
  buckets : src.bucket ≠ dst.bucket
  delete : args.delete = true
  strategy : SyncStrategy.new args.sizeOnly args.checksum = .sizeOnly
  uncapped : args.maxDelete = none

/-- The contents of the two buckets: the source matches something, none of it of
a glacier class, and there are no objects at the bases of the two trees. -/
structure Admissible (src dst : Url) (st : Store) : Prop where
  matched : ∃ o ∈ (st src.bucket).objs, src.isMatch o.key = true
  noGlacier : ∀ o ∈ (st src.bucket).objs, src.isMatch o.key = true →
    isGlacier o.storageClass = false
  noSourceBase : ∀ o ∈ (st src.bucket).objs, o.key ≠ treeBase src
  noDestBase : ∀ o ∈ (st dst.bucket).objs, o.key ≠ dst.path

/-- The destination's relative keys are the matched relative keys of the source,
with equal sizes. -/
def Mirrored (src dst : Url) (st : Store) : Prop :=
  ∀ r, (st dst.bucket).sizeAt (dst.path ++ r) =
    if src.isMatch (treeBase src ++ r) then (st src.bucket).sizeAt (treeBase src ++ r) else none

/-- From the store, `sync` makes a plan that can be executed, every execution of
it without failures mirrors the source, and the next plan is empty. -/
def SyncMirrors (src dst : Url) (args : SyncArgs) (st : Store) : Prop :=
  ∀ bs bd : Backend, bs.Hosts st src → bd.HostsDest st dst →
    ∃ plan, syncPlan bs bd src dst args noFilters = .ok plan ∧
      (∀ stamp, ∃ st', Executes plan stamp st st') ∧
      ∀ stamp st', Executes plan stamp st st' → Mirrored src dst st' ∧
        ∀ bs' bd' : Backend, bs'.Hosts st' src → bd'.HostsDest st' dst →
          syncPlan bs' bd' src dst args noFilters = .ok ⟨[], []⟩

/-- Spaces, which a listing shows as `+`, do no harm: no matched key has one, and
what is listed under a key is the size of the object at that key. -/
structure PlusSafe (src : Url) (force : Bool) (b : Bucket) : Prop where
  noSpace : ∀ o ∈ b.objs, src.isMatch o.key = true → ' ' ∉ o.key
  sameSize : ∀ o ∈ b.objs, skipGlacier o.storageClass force = false → src.keyPrefix <+: o.key →
    src.isMatch (shownKey o.key) = true → b.sizeAt (shownKey o.key) = some o.size

section Setting

variable {src dst : Url} {args : SyncArgs} {st : Store}

theorem Mirroring.source (h : Mirroring src dst args) : IsPattern src := by
  obtain ⟨raw, hraw⟩ := h.srcParsed
  exact isPattern_of_parse hraw h.srcRemote h.srcWildcard

/-- The URL the destination is listed with. -/
def destListing (dst : Url) : Url :=
  Url.parsed .remote "s3".toList dst.bucket (dst.path ++ ['*']) {}

theorem Mirroring.dstSlash (h : Mirroring src dst args) :
    dst.path = [] ∨ Str.endsWith '/' dst.path = true := by
  rcases h.dstDir with hb | hp
  · left
    simpa [Url.isBucket, h.dstRemote] using hb
  · right
    simpa [Url.isPrefix, h.dstRemote] using hp

theorem Mirroring.listing (h : Mirroring src dst args) :
    Url.parse (listingPath dst) = .ok (destListing dst) := by
  obtain ⟨raw, hraw⟩ := h.dstParsed
  have hkey : listingKey dst = dst.path := by
    unfold listingKey
    rcases h.dstSlash with hnil | hslash
    · rw [if_pos hnil, hnil]
    · rw [if_pos hslash]
      split
      · rename_i hnil
        exact hnil.symm
      · rfl
  rw [parse_listing_remote hraw h.dstRemote, hkey]
  rfl

theorem Mirroring.literalPart (h : Mirroring src dst args) :
    Url.literalPart (dst.path ++ ['*']) = dst.path := by
  rw [Url.literalPart_append h.dstLiteral, show Url.literalPart ['*'] = [] by decide, List.append_nil]

theorem Mirroring.dest (h : Mirroring src dst args) : IsPattern (destListing dst) := by
  refine ⟨rfl, ?_⟩
  show Url.globPart (dst.path ++ ['*']) ≠ []
  rw [Url.globPart_append h.dstLiteral]
  decide

theorem Mirroring.treeBase_dest (h : Mirroring src dst args) : treeBase (destListing dst) = dst.path := by
  have hname : '/' ∉ ([] : Str) := by simp
  have := rdropWhile_append_name hname h.dstSlash
  rw [List.append_nil] at this
  rw [treeBase, show (destListing dst).keyPrefix = _ from h.literalPart, this]

theorem Mirroring.isMatch_dest (h : Mirroring src dst args) (r : Str) :
    (destListing dst).isMatch (dst.path ++ r) = true :=
  (Url.isMatch_listing h.dstLiteral rfl _).mpr ⟨r, rfl⟩

/-- The URLs in a map lead to the paths its entries are filed under. -/
theorem MapOf.located {w : Url} {keep : StoredObject → Prop} {objs : List StoredObject}
    {m : ObjectMap} (hm : MapOf w keep objs m) (hw : IsPattern w)
    (hbase : ∀ o ∈ objs, o.key ≠ treeBase w) {r : Str} {obj : Object} (hr : m[r]? = some obj) :
    ∃ u, obj.url = some u ∧ u.bucket = w.bucket ∧ u.path = treeBase w ++ r ∧ u.relative = r := by
  obtain ⟨o, ho, -, hshown, rfl⟩ := hm.sound r obj hr
  obtain ⟨u, hu, hb, hpath, -, hrel⟩ := relative_listed hw hshown (hbase o ho)
  exact ⟨u, hu, hb, hpath, hrel⟩

/-- **The plan** of two complete listings. -/
theorem planOf_partition (h : Mirroring src dst args) {keep keep' : StoredObject → Prop}
    {S D : List StoredObject} {source dest : ObjectMap} (hsource : MapOf src keep S source)
    (hdest : MapOf (destListing dst) keep' D dest) (hbase : ∀ o ∈ S, o.key ≠ treeBase src)
    (hbase' : ∀ o ∈ D, o.key ≠ dst.path) :
    PlanOf src dst source dest (partition .sizeOnly dst true true source dest) := by
  have hurls : HasUrls source := by
    intro k obj hk
    obtain ⟨u, hu, -⟩ := hsource.located h.source hbase hk
    rw [hu]
    rfl
  have hgen : ∀ u : Url, generateDestinationUrl u dst true = dst.join u.relative := by
    intro u
    unfold generateDestinationUrl objname
    rcases h.dstDir with hb | hp
    · simp [h.dstRemote, hb]
    · simp [h.dstRemote, hp]
  have hjoin : ∀ r : Str, (dst.join r).bucket = dst.bucket ∧ (dst.join r).path = dst.path ++ r := by
    intro r
    refine ⟨rfl, ?_⟩
    rw [Url.join, if_pos h.dstRemote]
  have hdestLocated : ∀ {r : Str} {obj : Object}, dest[r]? = some obj →
      ∃ u, obj.url = some u ∧ u.bucket = dst.bucket ∧ u.path = dst.path ++ r := by
    intro r obj hr
    obtain ⟨u, hu, hb, hpath, -⟩ := hdest.located h.dest
      (by rw [h.treeBase_dest]; exact hbase') hr
    rw [h.treeBase_dest] at hpath
    exact ⟨u, hu, hb, hpath⟩
  refine ⟨?_, ?_, ?_, ?_⟩
  · intro p hp
    obtain ⟨r, obj, hr, hu, htarget, hcopy⟩ := (mem_toCopy hurls).mp hp
    obtain ⟨u, hu', hb, hpath, hrel⟩ := hsource.located h.source hbase hr
    obtain rfl := Option.some.inj (hu.symm.trans hu')
    rw [hgen, hrel] at htarget
    refine ⟨r, obj, hr, hcopy, hb, hpath, ?_, ?_⟩
    · rw [htarget, (hjoin r).1]
    · rw [htarget, (hjoin r).2]
  · intro r obj hr hcopy
    obtain ⟨u, hu, -, -, hrel⟩ := hsource.located h.source hbase hr
    refine ⟨(u, generateDestinationUrl u dst true),
      (mem_toCopy hurls).mpr ⟨r, obj, hr, hu, rfl, hcopy⟩, ?_⟩
    show (generateDestinationUrl u dst true).path = _
    rw [hgen, hrel, (hjoin r).2]
  · intro u hu
    obtain ⟨r, obj, hr, hobj, hnone⟩ := (mem_toDelete hurls).mp hu
    obtain ⟨u', hu', hb, hpath⟩ := hdestLocated hr
    obtain rfl := Option.some.inj (hobj.symm.trans hu')
    exact ⟨r, mem_of_getElem? hr, hnone, hb, hpath⟩
  · intro r hr hnone
    obtain ⟨obj, hobj⟩ := Option.isSome_iff_exists.mp (Std.ExtTreeMap.mem_iff_isSome_getElem?.mp hr)
    obtain ⟨u, hu, -, hpath⟩ := hdestLocated hobj
    exact ⟨u, (mem_toDelete hurls).mpr ⟨r, obj, hobj, hu, hnone⟩, hpath⟩

/-- Planning over complete listings: the plan, and the maps it was made of. -/
theorem exists_syncPlan (h : Mirroring src dst args) {bs bd : Backend} (hs : bs.Hosts st src)
    (hd : bd.HostsDest st dst) (hbase : ∀ o ∈ (st src.bucket).objs, o.key ≠ treeBase src)
    (hbase' : ∀ o ∈ (st dst.bucket).objs, o.key ≠ dst.path) {source : ObjectMap}
    (hsource : collectSourceObjects bs src args true noFilters = .ok source) :
    ∃ dest, MapOf src (fun o => skipGlacier o.storageClass args.forceGlacierTransfer = false)
        (st src.bucket).objs source ∧
      MapOf (destListing dst) (fun _ => True) (st dst.bucket).objs dest ∧
      ∃ plan, syncPlan bs bd src dst args noFilters = .ok plan ∧ PlanOf src dst source dest plan := by
  obtain ⟨s3, hs3, hserve⟩ := hs
  obtain ⟨s3', hs3', hserve'⟩ := hd _ h.listing
  have hmap := collectSourceObjects_mapOf h.source hserve hs3 hbase hsource
  obtain ⟨dest, hdest, hmap'⟩ := collectDestObjects_mapOf h.dest hserve' hs3'
    (by rw [h.treeBase_dest]; exact hbase') h.listing
  have hbatch : isSourceBatch bs src = .ok true := by
    rw [isSourceBatch, if_pos h.srcWildcard]
  have hgroups := syncGroups_of_collect hbatch hsource hdest
  rw [h.strategy, h.delete] at hgroups
  refine ⟨dest, hmap, hmap', _, ?_, planOf_partition h hmap hmap' hbase hbase'⟩
  rw [syncPlan, hgroups, h.uncapped]
  rfl

end Setting

/-! ## Spaces that do no harm -/

section Safe

variable {src dst : Url} {args : SyncArgs} {st : Store}

theorem not_mem_of_getElem? {m : ObjectMap} {r : Str} (h : m[r]? = none) : r ∉ m := by
  intro hmem
  have := Std.ExtTreeMap.mem_iff_isSome_getElem?.mp hmem
  rw [h] at this
  cases this

/-- A map gives the sizes of the objects of the bucket by relative path. -/
theorem MapOf.reads {w : Url} {keep : StoredObject → Prop} {b : Bucket} {m : ObjectMap}
    (hm : MapOf w keep b.objs m) (hw : IsPattern w)
    (hkeep : ∀ o ∈ b.objs, w.isMatch o.key = true → keep o)
    (hspace : ∀ o ∈ b.objs, w.isMatch o.key = true → ' ' ∉ o.key)
    (hsize : ∀ o ∈ b.objs, keep o → w.keyPrefix <+: o.key → w.isMatch (shownKey o.key) = true →
      b.sizeAt (shownKey o.key) = some o.size) (r : Str) :
    (m[r]?).map Object.size =
      if w.isMatch (treeBase w ++ r) then b.sizeAt (treeBase w ++ r) else none := by
  cases hr : m[r]? with
  | some obj =>
    obtain ⟨o, ho, hk, hshown, rfl⟩ := hm.sound r obj hr
    have hmatch := hshown.isMatch
    have := hsize o ho hk hshown.covered hmatch
    rw [hshown.shown] at this hmatch
    rw [if_pos hmatch, this]
    rfl
  | none =>
    split
    · rename_i hmatch
      cases hfind : b.find (treeBase w ++ r) with
      | none =>
        rw [Bucket.sizeAt, hfind]
        rfl
      | some o =>
        -- the object would have been listed
        obtain ⟨ho, hkey⟩ := Bucket.find_eq_some.mp hfind
        rw [← hkey] at hmatch
        have hshown := hw.shownAt_self hkey hmatch (hspace o ho hmatch)
        exact absurd (hm.complete o ho (hkeep o ho hmatch) r hshown) (not_mem_of_getElem? hr)
    · rfl

/-- A plan made of maps with the same sizes has nothing to do. -/
theorem PlanOf.eq_nil {source dest : ObjectMap} {plan : SyncPlan}
    (h : PlanOf src dst source dest plan)
    (hsame : ∀ r : Str, (source[r]?).map Object.size = (dest[r]?).map Object.size) :
    plan = ⟨[], []⟩ := by
  have hcopy : plan.toCopy = [] := by
    rw [List.eq_nil_iff_forall_not_mem]
    intro p hp
    obtain ⟨r, obj, hr, hcopy, -⟩ := h.copy p hp
    have hsize := hsame r
    rw [hr, Option.map_some, eq_comm, Option.map_eq_some_iff] at hsize
    obtain ⟨d, hd, hdsize⟩ := hsize
    rw [hd] at hcopy
    simp [Copies, SyncStrategy.shouldSync, hdsize] at hcopy
  have hdelete : plan.toDelete = [] := by
    rw [List.eq_nil_iff_forall_not_mem]
    intro u hu
    obtain ⟨r, hr, hnone, -⟩ := h.delete u hu
    have hsize := hsame r
    rw [hnone, Option.map_none, eq_comm, Option.map_eq_none_iff] at hsize
    exact not_mem_of_getElem? hsize hr
  obtain ⟨copies, deletes⟩ := plan
  rw [SyncPlan.mk.injEq]
  exact ⟨hcopy, hdelete⟩

/-- Keys without spaces in a destination, and a source that `+` does not confuse. -/
structure SpaceSafe (src dst : Url) (force : Bool) (st : Store) : Prop where
  base : ' ' ∉ dst.path
  source : PlusSafe src force (st src.bucket)
  dest : ∀ o ∈ (st dst.bucket).objs, dst.path <+: o.key → ' ' ∉ o.key

/-- The listings of both sides give the sizes of what is stored. -/
theorem SpaceSafe.exists_plan (h : Mirroring src dst args) (hadm : Admissible src dst st)
    (hsafe : SpaceSafe src dst args.forceGlacierTransfer st) {bs bd : Backend}
    (hs : bs.Hosts st src) (hd : bd.HostsDest st dst) :
    ∃ source dest plan, syncPlan bs bd src dst args noFilters = .ok plan ∧
      PlanOf src dst source dest plan ∧
      (∀ r : Str, (source[r]?).map Object.size = if src.isMatch (treeBase src ++ r) then
        (st src.bucket).sizeAt (treeBase src ++ r) else none) ∧
      ∀ r : Str, (dest[r]?).map Object.size = (st dst.bucket).sizeAt (dst.path ++ r) := by
  have hsource : ∃ source, collectSourceObjects bs src args true noFilters = .ok source := by
    obtain ⟨o, ho, hmatch⟩ := hadm.matched
    have hself := shownKey_eq_self.mpr (hsafe.source.noSpace o ho hmatch)
    obtain ⟨x, -, -, hshown⟩ := h.source.shownAt_tail (h.source.keyPrefix_of_isMatch hmatch)
      (by rw [hself]; exact hmatch)
    obtain ⟨s3, hs3, hserve⟩ := hs
    exact exists_collectSourceObjects h.source hserve hs3 ho hshown args
  obtain ⟨source, hsource⟩ := hsource
  obtain ⟨dest, hmap, hmap', plan, hplan, hof⟩ :=
    exists_syncPlan h hs hd hadm.noSourceBase hadm.noDestBase hsource
  refine ⟨source, dest, plan, hplan, hof, ?_, ?_⟩
  · refine hmap.reads h.source ?_ hsafe.source.noSpace hsafe.source.sameSize
    intro o ho hmatch
    rw [skipGlacier, hadm.noGlacier o ho hmatch, Bool.and_false]
  · intro r
    have hnospace : ∀ o ∈ (st dst.bucket).objs, (destListing dst).keyPrefix <+: o.key →
        ' ' ∉ o.key := by
      intro o ho hpre
      rw [show (destListing dst).keyPrefix = _ from h.literalPart] at hpre
      exact hsafe.dest o ho hpre
    have hread := hmap'.reads h.dest (fun _ _ _ => trivial)
      (fun o ho hmatch => hnospace o ho (h.dest.keyPrefix_of_isMatch hmatch)) ?_ r
    · rw [h.treeBase_dest, if_pos (h.isMatch_dest r)] at hread
      exact hread
    · -- every key is listed as it is
      intro o ho _ hpre _
      rw [shownKey_eq_self.mpr (hnospace o ho hpre), Bucket.sizeAt, Bucket.find_eq_some.mpr ⟨ho, rfl⟩]
      rfl

/-- **Mirroring**: where spaces do no harm the plan of two complete listings can
be executed, and any execution makes the destination a mirror of the source. -/
theorem SpaceSafe.mirrored {source dest : ObjectMap} {plan : SyncPlan}
    (h : Mirroring src dst args) (hof : PlanOf src dst source dest plan)
    (hsource : ∀ r : Str, (source[r]?).map Object.size = if src.isMatch (treeBase src ++ r) then
      (st src.bucket).sizeAt (treeBase src ++ r) else none)
    (hdest : ∀ r : Str, (dest[r]?).map Object.size = (st dst.bucket).sizeAt (dst.path ++ r))
    {stamp : Url → CopyStamp} {st' : Store} (hex : Executes plan stamp st st') :
    Mirrored src dst st' := by
  intro r
  rw [hof.execute_source h.buckets hex, ← hsource r]
  cases hr : source[r]? with
  | none =>
    cases hd : dest[r]? with
    | some d =>
      exact hof.execute_deleted h.buckets hex (mem_of_getElem? hd) hr
    | none =>
      have hkept := hof.execute_kept h.buckets hex (fun obj hobj => by rw [hr] at hobj; cases hobj)
        (.inr (not_mem_of_getElem? hd))
      rw [Bucket.sizeAt, hkept]
      have := hdest r
      rw [hd] at this
      exact this.symm
  | some obj =>
    have hread := hsource r
    rw [hr] at hread
    by_cases hcopy : Copies .sizeOnly obj dest[r]? = true
    · -- the size that was listed is the size that is copied
      obtain ⟨size, hsize, hfinal⟩ := hof.execute_copied h.buckets hex hr hcopy
      rw [hfinal, hread, hsize, if_pos]
      by_contra hno
      rw [if_neg hno] at hread
      cases hread
    · -- left alone: the sizes agree already
      have hkept := hof.execute_kept h.buckets hex
        (fun obj' hobj' => by
          obtain rfl := Option.some.inj (hr.symm.trans hobj')
          simpa using hcopy) (.inl (by rw [hr]; simp))
      rw [Bucket.sizeAt, hkept]
      have hd := hdest r
      cases hdr : dest[r]? with
      | none => simp [Copies, hdr] at hcopy
      | some d =>
        rw [hdr] at hd hcopy
        have heq : obj.size = d.size := by simpa [Copies, SyncStrategy.shouldSync] using hcopy
        rw [Option.map_some, heq]
        exact hd.symm

/-- Every object of a mirror has its original. -/
theorem Mirrored.origin (hm : Mirrored src dst st) {o : StoredObject} (ho : o ∈ (st dst.bucket).objs)
    {r : Str} (hkey : o.key = dst.path ++ r) :
    ∃ o' ∈ (st src.bucket).objs, src.isMatch o'.key = true ∧ o'.key = treeBase src ++ r := by
  have hsize := hm r
  rw [← hkey, Bucket.sizeAt, Bucket.find_eq_some.mpr ⟨ho, rfl⟩] at hsize
  split at hsize
  · rename_i hmatch
    obtain ⟨o', ho', -⟩ := Option.map_eq_some_iff.mp hsize.symm
    obtain ⟨hmem, hkey'⟩ := Bucket.find_eq_some.mp ho'
    exact ⟨o', hmem, by rw [hkey']; exact hmatch, hkey'⟩
  · cases hsize

/-- What a mirror contains has no spaces in its keys. -/
theorem Mirrored.noSpace (hm : Mirrored src dst st) (hbase : ' ' ∉ dst.path)
    (hno : ∀ o ∈ (st src.bucket).objs, src.isMatch o.key = true → ' ' ∉ o.key) {o : StoredObject}
    (ho : o ∈ (st dst.bucket).objs) (hpre : dst.path <+: o.key) : ' ' ∉ o.key := by
  obtain ⟨r, hr⟩ := hpre
  obtain ⟨o', ho', hmatch, hkey⟩ := hm.origin ho hr.symm
  rw [← hr, List.mem_append, not_or]
  refine ⟨hbase, fun hmem => hno o' ho' hmatch ?_⟩
  rw [hkey]
  exact List.mem_append_right _ hmem

theorem Mirrored.noDestBase (hm : Mirrored src dst st)
    (hbase : ∀ o ∈ (st src.bucket).objs, o.key ≠ treeBase src) :
    ∀ o ∈ (st dst.bucket).objs, o.key ≠ dst.path := by
  intro o ho hkey
  obtain ⟨o', ho', -, hkey'⟩ := hm.origin ho (show o.key = dst.path ++ [] by simpa using hkey)
  exact hbase o' ho' (by simpa using hkey')

/-- After an execution the contents are as good as before. -/
theorem SpaceSafe.of_mirrored {st' : Store} (hadm : Admissible src dst st)
    (hsafe : SpaceSafe src dst args.forceGlacierTransfer st)
    (hsource : st' src.bucket = st src.bucket) (hm : Mirrored src dst st') :
    Admissible src dst st' ∧ SpaceSafe src dst args.forceGlacierTransfer st' := by
  have hsafe' : PlusSafe src args.forceGlacierTransfer (st' src.bucket) := by
    rw [hsource]
    exact hsafe.source
  have hbase : ∀ o ∈ (st' src.bucket).objs, o.key ≠ treeBase src := by
    rw [hsource]
    exact hadm.noSourceBase
  refine ⟨⟨?_, ?_, hbase, hm.noDestBase hbase⟩, hsafe.base, hsafe', ?_⟩
  · rw [hsource]
    exact hadm.matched
  · rw [hsource]
    exact hadm.noGlacier
  · intro o ho hpre
    exact hm.noSpace hsafe.base hsafe'.noSpace ho hpre

/-- Where spaces do no harm, `sync` mirrors and is idempotent. -/
theorem syncMirrors_of_safe (h : Mirroring src dst args) (hadm : Admissible src dst st)
    (hsafe : SpaceSafe src dst args.forceGlacierTransfer st) : SyncMirrors src dst args st := by
  intro bs bd hs hd
  obtain ⟨source, dest, plan, hplan, hof, hsource, hdest⟩ := hsafe.exists_plan h hadm hs hd
  refine ⟨plan, hplan, ?_, ?_⟩
  · intro stamp
    have hfound : ∀ p ∈ plan.toCopy, (st src.bucket).find p.1.path ≠ none := by
      intro p hp hnone
      obtain ⟨r, obj, hr, -, -, hpath, -⟩ := hof.copy p hp
      have hsize := hsource r
      rw [hr, Bucket.sizeAt, ← hpath, hnone] at hsize
      split at hsize <;> cases hsize
    obtain ⟨mid, hmid⟩ : ∃ mid, plan.toCopy.foldlM (Store.copy stamp) st = some mid :=
      Store.exists_foldlM_copy h.buckets (hof.between (List.Perm.refl _)) hfound
    exact ⟨_, executes_iff.mpr ⟨plan.toCopy, plan.toDelete, .refl _, .refl _,
      by rw [Store.execute, hmid]; rfl⟩⟩
  · intro stamp st' hex
    have hm := SpaceSafe.mirrored h hof hsource hdest hex
    refine ⟨hm, ?_⟩
    intro bs' bd' hs' hd'
    obtain ⟨hadm', hsafe'⟩ := hsafe.of_mirrored hadm (hof.execute_source h.buckets hex) hm
    obtain ⟨source', dest', plan', hplan', hof', hsource', hdest'⟩ :=
      hsafe'.exists_plan h hadm' hs' hd'
    rw [hplan', hof'.eq_nil fun r => by rw [hsource' r, hdest' r, hm r]]

end Safe

/-! ## Servers to run against -/

/-- The listing of the given objects as one page. -/
def servedPage (os : List StoredObject) : Page :=
  { contents := os.map (StoredObject.entry urlEncode) }

def Backend.serving (os : List StoredObject) : Backend := .ofPages [.ok (servedPage os)]

section Serving

variable {w : Url} {st : Store} {os : List StoredObject}

theorem hosts_serving (hw : IsPattern w)
    (hos : ∀ o, o ∈ os ↔ o ∈ (st w.bucket).objs ∧ w.keyPrefix <+: o.key) :
    (Backend.serving os).Hosts st w := by
  refine ⟨_, rfl, [servedPage os], ?_, rfl⟩
  intro c
  constructor
  · rintro ⟨page, hpage, hc⟩
    rw [List.mem_singleton.mp hpage] at hc
    obtain ⟨o, ho, rfl⟩ := List.mem_map.mp hc
    obtain ⟨hmem, hpre⟩ := (hos o).mp ho
    exact ⟨o, hmem, hw.covers_iff.mpr hpre, rfl⟩
  · rintro ⟨o, ho, hcov, rfl⟩
    have hin := (hos o).mpr ⟨ho, hw.covers_iff.mp hcov⟩
    exact ⟨_, List.mem_singleton_self _, List.mem_map_of_mem hin⟩

theorem exists_hosts (hw : IsPattern w) (st : Store) : ∃ b : Backend, b.Hosts st w := by
  refine ⟨.serving ((st w.bucket).objs.filter fun o => w.keyPrefix.isPrefixOf o.key),
    hosts_serving hw ?_⟩
  intro o
  rw [List.mem_filter, List.isPrefixOf_iff_prefix]

/-- Some server lists a given object after all others, so that it is the one that
is collected. -/
theorem exists_hosts_last (hw : IsPattern w) (hbase : ∀ o ∈ (st w.bucket).objs, o.key ≠ treeBase w)
    {o : StoredObject} (ho : o ∈ (st w.bucket).objs) {r : Str} (hshown : ShownAt w o r)
    {args : SyncArgs} (hkeep : skipGlacier o.storageClass args.forceGlacierTransfer = false) :
    ∃ b : Backend, b.Hosts st w ∧ ∃ source,
      collectSourceObjects b w args true noFilters = .ok source ∧ source[r]? = some (o.listed w) := by
  let others := (st w.bucket).objs.filter fun o' => w.keyPrefix.isPrefixOf o'.key && o' != o
  have hos : ∀ o', o' ∈ others ++ [o] ↔ o' ∈ (st w.bucket).objs ∧ w.keyPrefix <+: o'.key := by
    intro o'
    simp only [others, List.mem_append, List.mem_filter, Bool.and_eq_true, bne_iff_ne,
      List.isPrefixOf_iff_prefix, List.mem_singleton]
    constructor
    · rintro (⟨hmem, hpre, -⟩ | rfl)
      · exact ⟨hmem, hpre⟩
      · exact ⟨ho, hshown.covered⟩
    · rintro ⟨hmem, hpre⟩
      by_cases heq : o' = o
      · exact .inr heq
      · exact .inl ⟨hmem, hpre, heq⟩
  have hhosts : (Backend.serving (others ++ [o])).Hosts st w := hosts_serving hw hos
  obtain ⟨s3, hs3, hserve⟩ := hhosts
  obtain ⟨source, hsource⟩ := exists_collectSourceObjects hw hserve hs3 ho hshown args
  refine ⟨_, ⟨s3, hs3, hserve⟩, source, hsource, ?_⟩
  obtain rfl := Except.ok.inj hs3
  -- the listing ends with the object
  have hcontent : contentObject w (o.entry urlEncode) = some (o.listed w) :=
    contentObject_urlEncode.mpr ⟨hshown.isMatch, rfl⟩
  obtain ⟨front, hlist⟩ : ∃ front,
      (S3.ofPages [.ok (servedPage (others ++ [o]))]).list w = front ++ [o.listed w] := by
    refine ⟨(others.map (StoredObject.entry urlEncode)).filterMap (contentObject w), ?_⟩
    have hversioned := hw.isVersioned
    simp [S3.list, S3.ofPages, hversioned, listV2, listV2Go, pageObjects, servedPage, hcontent,
      listEnd]
  rw [collectSourceObjects_pattern hw hs3, hlist] at hsource
  obtain ⟨u, hu, -, -, hrem, -⟩ := relative_listed hw hshown (hbase o ho)
  rw [collectListed_last hsource ((keptKey_listed hw hshown (hbase o ho)).mpr ⟨hkeep, hu, rfl⟩),
    fillChecksum_remote hrem]

end Serving

/-! ## Spaces that do harm -/

section Harm

variable {src dst : Url} {args : SyncArgs} {st st' : Store} {bs bd : Backend} {plan : SyncPlan}

/-- A plan over complete listings was made of their maps. -/
theorem syncPlan_cases (h : Mirroring src dst args) (hs : bs.Hosts st src) (hd : bd.HostsDest st dst)
    (hbase : ∀ o ∈ (st src.bucket).objs, o.key ≠ treeBase src)
    (hbase' : ∀ o ∈ (st dst.bucket).objs, o.key ≠ dst.path)
    (hplan : syncPlan bs bd src dst args noFilters = .ok plan) :
    ∃ source dest, collectSourceObjects bs src args true noFilters = .ok source ∧
      MapOf src (fun o => skipGlacier o.storageClass args.forceGlacierTransfer = false)
        (st src.bucket).objs source ∧
      MapOf (destListing dst) (fun _ => True) (st dst.bucket).objs dest ∧
      PlanOf src dst source dest plan := by
  obtain ⟨isBatch, source, -, hbatch, hsource, -, -⟩ := syncGroups_ok (syncPlan_ok hplan)
  rw [isSourceBatch, if_pos h.srcWildcard] at hbatch
  obtain rfl := Except.ok.inj hbatch
  obtain ⟨dest, hmap, hmap', plan', hplan', hof⟩ := exists_syncPlan h hs hd hbase hbase' hsource
  obtain rfl := Except.ok.inj (hplan.symm.trans hplan')
  exact ⟨source, dest, hsource, hmap, hmap', hof⟩

/-- No path with a space in it is listed. -/
theorem MapOf.no_space {w : Url} {keep : StoredObject → Prop} {objs : List StoredObject}
    {m : ObjectMap} (hm : MapOf w keep objs m) {r : Str} (hspace : ' ' ∈ treeBase w ++ r) :
    m[r]? = none := by
  cases hr : m[r]? with
  | none => rfl
  | some obj =>
    obtain ⟨o, -, -, hshown, -⟩ := hm.sound r obj hr
    rw [← hshown.shown] at hspace
    exact absurd hspace (space_not_mem_shownKey o.key)

/-- A destination object whose key has a space after the prefix is neither
overwritten nor deleted, and neither is anything put there. -/
theorem PlanOf.execute_space {source dest : ObjectMap} (hof : PlanOf src dst source dest plan)
    (h : Mirroring src dst args) {keep keep' : StoredObject → Prop} {S D : List StoredObject}
    (hsource : MapOf src keep S source) (hdest : MapOf (destListing dst) keep' D dest)
    {stamp : Url → CopyStamp} (hex : Executes plan stamp st st') {r : Str}
    (hspace : ' ' ∈ treeBase src ++ r) (hr : ' ' ∈ r ∨ D = []) :
    (st' dst.bucket).find (dst.path ++ r) = (st dst.bucket).find (dst.path ++ r) := by
  have hsrc : source[r]? = none := hsource.no_space hspace
  refine hof.execute_kept h.buckets hex (fun obj hobj => by rw [hsrc] at hobj; cases hobj) (.inr ?_)
  rcases hr with hr | rfl
  · exact not_mem_of_getElem? (hdest.no_space (List.mem_append_right _ hr))
  · refine not_mem_of_getElem? ?_
    cases hd : dest[r]? with
    | none => rfl
    | some obj =>
      obtain ⟨o, ho, -⟩ := hdest.sound r obj hd
      simp at ho

/-- A destination that is listed as nothing although something is shown of the
source is copied to. -/
theorem PlanOf.ne_nil {source dest : ObjectMap} (hof : PlanOf src dst source dest plan) {r : Str}
    {obj : Object} (hr : source[r]? = some obj) (hcopy : Copies .sizeOnly obj dest[r]? = true) :
    plan ≠ ⟨[], []⟩ := by
  rintro rfl
  obtain ⟨p, hp, -⟩ := hof.copied r obj hr hcopy
  cases hp

theorem exists_hostsDest (h : Mirroring src dst args) (st : Store) :
    ∃ b : Backend, b.HostsDest st dst := by
  obtain ⟨b, hb⟩ := exists_hosts h.dest st
  refine ⟨b, fun lu hlu => ?_⟩
  obtain rfl := Except.ok.inj (h.listing.symm.trans hlu)
  exact hb

/-- Into an empty destination: a matched key with a space is not mirrored. -/
theorem SyncMirrors.noSpace (hm : SyncMirrors src dst args st) (h : Mirroring src dst args)
    (hadm : Admissible src dst st) (hempty : (st dst.bucket).objs = []) {o : StoredObject}
    (ho : o ∈ (st src.bucket).objs) (hmatch : src.isMatch o.key = true) : ' ' ∉ o.key := by
  intro hspace
  obtain ⟨bs, hbs⟩ := exists_hosts h.source st
  obtain ⟨bd, hbd⟩ := exists_hostsDest h st
  obtain ⟨plan, hplan, hexists, hall⟩ := hm bs bd hbs hbd
  obtain ⟨source, dest, -, hsource, hdest, hof⟩ :=
    syncPlan_cases h hbs hbd hadm.noSourceBase hadm.noDestBase hplan
  obtain ⟨st', hex⟩ := hexists fun _ => {}
  -- the object that has to be at the destination
  obtain ⟨t, ht⟩ := treeBase_prefix src
  obtain ⟨t', ht'⟩ := h.source.keyPrefix_of_isMatch hmatch
  have hkey : o.key = treeBase src ++ (t ++ t') := by rw [← ht', ← ht, List.append_assoc]
  have hmirror := (hall _ st' hex).1 (t ++ t')
  rw [← hkey, if_pos hmatch, hof.execute_source h.buckets hex, Bucket.sizeAt, Bucket.sizeAt,
    Bucket.find_eq_some.mpr ⟨ho, rfl⟩, hof.execute_space h hsource hdest hex (hkey ▸ hspace)
      (.inr hempty), Bucket.find_eq_none.mpr (by simp [hempty])] at hmirror
  cases hmirror

/-- A destination whose own path has a space is never seen, and copied to again. -/
theorem SyncMirrors.base (hm : SyncMirrors src dst args st) (h : Mirroring src dst args)
    (hadm : Admissible src dst st) (hempty : (st dst.bucket).objs = []) : ' ' ∉ dst.path := by
  intro hspace
  obtain ⟨bs, hbs⟩ := exists_hosts h.source st
  obtain ⟨bd, hbd⟩ := exists_hostsDest h st
  obtain ⟨plan, hplan, hexists, hall⟩ := hm bs bd hbs hbd
  obtain ⟨source, dest, -, hsource, hdest, hof⟩ :=
    syncPlan_cases h hbs hbd hadm.noSourceBase hadm.noDestBase hplan
  obtain ⟨st', hex⟩ := hexists fun _ => {}
  obtain ⟨hmirror, hagain⟩ := hall _ st' hex
  have hsame := hof.execute_source h.buckets hex
  -- plan again: the first matched object is shown, its copy is not
  obtain ⟨bs', hbs'⟩ := exists_hosts h.source st'
  obtain ⟨bd', hbd'⟩ := exists_hostsDest h st'
  obtain ⟨o, ho, hmatch⟩ := hadm.matched
  have hno := hm.noSpace h hadm hempty ho hmatch
  have hsourceBase : ∀ o' ∈ (st' src.bucket).objs, o'.key ≠ treeBase src := by
    rw [hsame]
    exact hadm.noSourceBase
  obtain ⟨source', dest', -, hsource', hdest', hof'⟩ := syncPlan_cases h hbs' hbd' hsourceBase
    (hmirror.noDestBase hsourceBase) (hagain bs' bd' hbs' hbd')
  obtain ⟨x, -, -, hshown⟩ := h.source.shownAt_tail (h.source.keyPrefix_of_isMatch hmatch)
    (by rw [shownKey_eq_self.mpr hno]; exact hmatch)
  have hkeep : skipGlacier o.storageClass args.forceGlacierTransfer = false := by
    rw [skipGlacier, hadm.noGlacier o ho hmatch, Bool.and_false]
  have hin := hsource'.complete o (by rw [hsame]; exact ho) hkeep _ hshown
  obtain ⟨obj, hobj⟩ := Option.isSome_iff_exists.mp (Std.ExtTreeMap.mem_iff_isSome_getElem?.mp hin)
  have hunseen : dest'[shownKey x]? = none := by
    refine hdest'.no_space (List.mem_append_left _ ?_)
    rw [h.treeBase_dest]
    exact hspace
  exact hof'.ne_nil hobj (by rw [hunseen]; rfl) rfl

/-- An object that is listed under the key of another one has to have its size,
or the second plan copies again. -/
theorem SyncMirrors.sameSize (hm : SyncMirrors src dst args st) (h : Mirroring src dst args)
    (hadm : Admissible src dst st) (hempty : (st dst.bucket).objs = []) {o : StoredObject}
    (ho : o ∈ (st src.bucket).objs)
    (hkeep : skipGlacier o.storageClass args.forceGlacierTransfer = false)
    (hcov : src.keyPrefix <+: o.key) (hmatch : src.isMatch (shownKey o.key) = true) :
    (st src.bucket).sizeAt (shownKey o.key) = some o.size := by
  obtain ⟨x, -, -, hshown⟩ := h.source.shownAt_tail hcov hmatch
  obtain ⟨bs, hbs, source, hcollect, hlast⟩ := exists_hosts_last h.source hadm.noSourceBase ho hshown
    hkeep
  obtain ⟨bd, hbd⟩ := exists_hostsDest h st
  obtain ⟨plan, hplan, hexists, hall⟩ := hm bs bd hbs hbd
  obtain ⟨source₁, dest, hcollect₁, hsource, hdest, hof⟩ :=
    syncPlan_cases h hbs hbd hadm.noSourceBase hadm.noDestBase hplan
  obtain rfl := Except.ok.inj (hcollect.symm.trans hcollect₁)
  obtain ⟨st', hex⟩ := hexists fun _ => {}
  obtain ⟨hmirror, hagain⟩ := hall _ st' hex
  have hsame := hof.execute_source h.buckets hex
  -- the first plan copies it, from the key it is listed under
  have hnone : dest[shownKey x]? = none := by
    cases hd : dest[shownKey x]? with
    | none => rfl
    | some obj =>
      obtain ⟨o', ho', -⟩ := hdest.sound _ obj hd
      rw [hempty] at ho'
      cases ho'
  obtain ⟨size, hsize, hfinal⟩ := hof.execute_copied h.buckets hex hlast (by rw [hnone]; rfl)
  rw [hshown.shown, hsize]
  -- the second plan finds the copy, with the same size
  have hsourceBase : ∀ o' ∈ (st' src.bucket).objs, o'.key ≠ treeBase src := by
    rw [hsame]
    exact hadm.noSourceBase
  obtain ⟨bs', hbs', source', hcollect', hlast'⟩ := exists_hosts_last h.source hsourceBase
    (by rw [hsame]; exact ho) hshown hkeep
  obtain ⟨bd', hbd'⟩ := exists_hostsDest h st'
  obtain ⟨source₂, dest', hcollect₂, -, hdest', hof'⟩ := syncPlan_cases h hbs' hbd' hsourceBase
    (hmirror.noDestBase hsourceBase) (hagain bs' bd' hbs' hbd')
  obtain rfl := Except.ok.inj (hcollect'.symm.trans hcollect₂)
  have hskip : ¬ Copies .sizeOnly (o.listed src) dest'[shownKey x]? = true :=
    fun hcopy => hof'.ne_nil hlast' hcopy rfl
  cases hd : dest'[shownKey x]? with
  | none =>
    rw [hd] at hskip
    exact absurd rfl hskip
  | some obj =>
    obtain ⟨o', ho', -, hshown', rfl⟩ := hdest'.sound _ obj hd
    rw [hd] at hskip
    have heq : o.size = o'.size := by
      simpa [Copies, SyncStrategy.shouldSync, StoredObject.listed] using hskip
    have hpre := hshown'.covered
    rw [show (destListing dst).keyPrefix = _ from h.literalPart] at hpre
    have hno : ' ' ∉ o'.key := by
      refine hmirror.noSpace (hm.base h hadm hempty) ?_ ho' hpre
      rw [hsame]
      intro o₁ ho₁ hmatch₁
      exact hm.noSpace h hadm hempty ho₁ hmatch₁
    have hkey := hshown'.shown
    rw [shownKey_eq_self.mpr hno, h.treeBase_dest] at hkey
    rw [Bucket.sizeAt, Bucket.find_eq_some.mpr ⟨ho', hkey⟩] at hfinal
    rw [heq, ← hfinal]
    rfl

/-- A destination object with a space in its key outlives every execution. -/
theorem SyncMirrors.destNoSpace (hm : SyncMirrors src dst args st) (h : Mirroring src dst args)
    (hadm : Admissible src dst st) (hbase : ' ' ∉ dst.path)
    (hno : ∀ o ∈ (st src.bucket).objs, src.isMatch o.key = true → ' ' ∉ o.key) {o : StoredObject}
    (ho : o ∈ (st dst.bucket).objs) (hpre : dst.path <+: o.key) : ' ' ∉ o.key := by
  intro hspace
  obtain ⟨r, hr⟩ := hpre
  have hrspace : ' ' ∈ r := by
    rw [← hr, List.mem_append] at hspace
    exact hspace.resolve_left hbase
  obtain ⟨bs, hbs⟩ := exists_hosts h.source st
  obtain ⟨bd, hbd⟩ := exists_hostsDest h st
  obtain ⟨plan, hplan, hexists, hall⟩ := hm bs bd hbs hbd
  obtain ⟨source, dest, -, hsource, hdest, hof⟩ :=
    syncPlan_cases h hbs hbd hadm.noSourceBase hadm.noDestBase hplan
  obtain ⟨st', hex⟩ := hexists fun _ => {}
  have hkept := hof.execute_space h hsource hdest hex (List.mem_append_right _ hrspace) (.inl hrspace)
  rw [hr, Bucket.find_eq_some.mpr ⟨ho, rfl⟩] at hkept
  have hmem := (Bucket.find_eq_some.mp hkept).1
  obtain ⟨o', ho', hmatch, hkey⟩ := (hall _ st' hex).1.origin hmem hr.symm
  rw [hof.execute_source h.buckets hex] at ho'
  refine hno o' ho' hmatch ?_
  rw [hkey]
  exact List.mem_append_right _ hrspace

end Harm

/-! ## Mirroring, exactly -/

/-- **`sync --delete` mirrors and is idempotent, exactly.** For two buckets and a
remote wildcard source, a plan made from any complete listings can be executed,
every execution mirrors the source and the next plan is empty, both from the
destination given and from an empty one, iff the destination has no spaces in its
path and keys, no matched source key has one, and no source object is listed
under the key of an object of another size, or of none. -/
theorem sync_mirrors_iff (src dst : Url) (args : SyncArgs) (st : Store)
    (h : Mirroring src dst args) (hadm : Admissible src dst st) :
    (SyncMirrors src dst args st ∧
        SyncMirrors src dst args (Function.update st dst.bucket .empty)) ↔
      SpaceSafe src dst args.forceGlacierTransfer st := by
  have hsource : Function.update st dst.bucket .empty src.bucket = st src.bucket :=
    Function.update_of_ne h.buckets _ _
  have hempty : (Function.update st dst.bucket .empty dst.bucket).objs = [] := by
    rw [Function.update_self]
    rfl
  have hadm' : Admissible src dst (Function.update st dst.bucket .empty) := by
    refine ⟨?_, ?_, ?_, ?_⟩
    · rw [hsource]
      exact hadm.matched
    · rw [hsource]
      exact hadm.noGlacier
    · rw [hsource]
      exact hadm.noSourceBase
    · rw [hempty]
      simp
  constructor
  · rintro ⟨hfull, hfresh⟩
    have hbase := hfresh.base h hadm' hempty
    have hno : ∀ o ∈ (st src.bucket).objs, src.isMatch o.key = true → ' ' ∉ o.key := by
      intro o ho hmatch
      exact hfresh.noSpace h hadm' hempty (by rw [hsource]; exact ho) hmatch
    refine ⟨hbase, ⟨hno, ?_⟩, fun o ho hpre => hfull.destNoSpace h hadm hbase hno ho hpre⟩
    intro o ho hkeep hcov hmatch
    have hsize := hfresh.sameSize h hadm' hempty (by rw [hsource]; exact ho) hkeep hcov hmatch
    rwa [hsource] at hsize
  · intro hsafe
    refine ⟨syncMirrors_of_safe h hadm hsafe, syncMirrors_of_safe h hadm' ⟨hsafe.base, ?_, ?_⟩⟩
    · rw [hsource]
      exact hsafe.source
    · rw [hempty]
      simp

/-- A store with a bucket `b` and a bucket `c`. -/
def twoBuckets (source dest : Bucket) : Store := fun name =>
  if name = "b".toList then source else if name = "c".toList then dest else .empty

/-- Two keys that a listing shows as one. -/
def spacedBucket : Bucket :=
  ⟨[{ key := "a b".toList, size := 5 }, { key := "a+b".toList, size := 7 }], by decide⟩

theorem mirroring_sample :
    Mirroring (.ofString "s3://b/*") (.ofString "s3://c/d/") { delete := true, sizeOnly := true } where
  srcParsed := ⟨"s3://b/*".toList, by decide +kernel⟩
  srcRemote := by decide +kernel
  srcWildcard := by decide +kernel
  dstParsed := ⟨"s3://c/d/".toList, by decide +kernel⟩
  dstRemote := by decide +kernel
  dstLiteral := by decide +kernel
  dstDir := by decide +kernel
  buckets := by decide +kernel
  delete := rfl
  strategy := rfl
  uncapped := rfl

/-- The plan of `sync --delete --size-only s3://b/* s3://c/d/` into an empty bucket. -/
def spacedPlan : SyncPlan :=
  okD (syncPlan (.serving spacedBucket.objs) (.serving []) (.ofString "s3://b/*")
    (.ofString "s3://c/d/") { delete := true, sizeOnly := true } noFilters) ⟨[], []⟩

/-- That plan copies `a+b` only and is executed without failures: `a b` is missing
at the destination. -/
theorem sync_space_not_mirrored :
    Mirroring (.ofString "s3://b/*") (.ofString "s3://c/d/") { delete := true, sizeOnly := true } ∧
      Admissible (.ofString "s3://b/*") (.ofString "s3://c/d/") (twoBuckets spacedBucket .empty) ∧
      ∃ bs bd plan st', bs.Hosts (twoBuckets spacedBucket .empty) (.ofString "s3://b/*") ∧
        bd.HostsDest (twoBuckets spacedBucket .empty) (.ofString "s3://c/d/") ∧
        syncPlan bs bd (.ofString "s3://b/*") (.ofString "s3://c/d/")
          { delete := true, sizeOnly := true } noFilters = .ok plan ∧
        Executes plan (fun _ => {}) (twoBuckets spacedBucket .empty) st' ∧
        ¬ Mirrored (.ofString "s3://b/*") (.ofString "s3://c/d/") st' := by
  have hadm : Admissible (.ofString "s3://b/*") (.ofString "s3://c/d/")
      (twoBuckets spacedBucket .empty) :=
    ⟨by decide +kernel, by decide +kernel, by decide +kernel, by decide +kernel⟩
  have hbs : (Backend.serving spacedBucket.objs).Hosts (twoBuckets spacedBucket .empty)
      (.ofString "s3://b/*") := by
    refine hosts_serving mirroring_sample.source fun o => ?_
    have hbucket : twoBuckets spacedBucket .empty (Url.ofString "s3://b/*").bucket = spacedBucket :=
      if_pos (by decide +kernel)
    have hnil : (Url.ofString "s3://b/*").keyPrefix = [] := by decide +kernel
    rw [hbucket, hnil]
    simp
  have hbd : (Backend.serving []).HostsDest (twoBuckets spacedBucket .empty)
      (.ofString "s3://c/d/") := by
    intro lu hlu
    obtain rfl := Except.ok.inj (mirroring_sample.listing.symm.trans hlu)
    refine hosts_serving mirroring_sample.dest fun o => ?_
    have hbucket : (twoBuckets spacedBucket .empty
        (destListing (.ofString "s3://c/d/")).bucket).objs = [] := by decide +kernel
    rw [hbucket]
    simp
  have hplan : syncPlan (.serving spacedBucket.objs) (.serving []) (.ofString "s3://b/*")
      (.ofString "s3://c/d/") { delete := true, sizeOnly := true } noFilters = .ok spacedPlan :=
    eq_ok_okD ⟨[], []⟩ (by decide +kernel)
  have hany : ((twoBuckets spacedBucket .empty).execute (fun _ => {}) spacedPlan.toCopy
      spacedPlan.toDelete).any (fun after => (after "c".toList).sizeAt "d/a b".toList == none &&
        (after "b".toList).sizeAt "a b".toList == some 5) = true := by decide +kernel
  obtain ⟨st', hst', hsizes⟩ := (Option.any_eq_true _ _).mp hany
  simp only [Bool.and_eq_true, beq_iff_eq] at hsizes
  refine ⟨mirroring_sample, hadm, _, _, spacedPlan, st', hbs, hbd, hplan,
    executes_iff.mpr ⟨_, _, .refl _, .refl _, hst'⟩, ?_⟩
  intro hmirror
  have hmissing := hmirror "a b".toList
  have hsource : treeBase (.ofString "s3://b/*") = [] := by decide +kernel
  have hbucket : (Url.ofString "s3://b/*").bucket = "b".toList := by decide +kernel
  have hbucket' : (Url.ofString "s3://c/d/").bucket = "c".toList := by decide +kernel
  have hpath : (Url.ofString "s3://c/d/").path ++ "a b".toList = "d/a b".toList := by decide +kernel
  rw [hpath, hbucket, hbucket', hsource, hsizes.1, List.nil_append, hsizes.2,
    if_pos (by decide +kernel)] at hmissing
  cases hmissing

/-- Keys that are listed as they are, and something to delete. -/
def plainBucket : Bucket := ⟨[{ key := "x".toList, size := 5 }, { key := "y/z".toList }], by decide⟩

def staleBucket : Bucket := ⟨[{ key := "d/x".toList, size := 4 }, { key := "d/w".toList }], by decide⟩

/-- Without spaces, `sync` mirrors. -/
theorem sync_mirrors_plain :
    Mirroring (.ofString "s3://b/*") (.ofString "s3://c/d/") { delete := true, sizeOnly := true } ∧
      Admissible (.ofString "s3://b/*") (.ofString "s3://c/d/") (twoBuckets plainBucket staleBucket) ∧
      SyncMirrors (.ofString "s3://b/*") (.ofString "s3://c/d/") { delete := true, sizeOnly := true }
        (twoBuckets plainBucket staleBucket) := by
  have hadm : Admissible (.ofString "s3://b/*") (.ofString "s3://c/d/")
      (twoBuckets plainBucket staleBucket) :=
    ⟨by decide +kernel, by decide +kernel, by decide +kernel, by decide +kernel⟩
  refine ⟨mirroring_sample, hadm, ((sync_mirrors_iff _ _ _ _ mirroring_sample hadm).mpr ?_).1⟩
  exact ⟨by decide +kernel, ⟨by decide +kernel, by decide +kernel⟩, by decide +kernel⟩

end Rs5cmd
