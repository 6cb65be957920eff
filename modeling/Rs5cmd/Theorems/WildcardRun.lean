import Rs5cmd.Theorems.Serial
import Rs5cmd.Theorems.SyncMirror

/-!
# A wildcard `cp` or `mv` from end to end

From the objects of a bucket through the listing and the pairs made of it to the world
that the transfers leave: each object that the wildcard picks is found at the destination
under its relative key, a moved one is gone from its source, and nothing else has changed.
-/

namespace Rs5cmd

/-- The wildcard picks an object, whose relative key is `r`. -/
structure Picked (src : Url) (filters : Filters) (o : StoredObject) (r : Str) : Prop where
  key : o.key = treeBase src ++ r
  isMatch : src.isMatch o.key = true
  kept : filters.shouldSkip r = false

/-- The setting: a remote wildcard, a complete listing in which each object is named once,
keys that a listing shows as they are, and none at the base of the wildcard itself. -/
structure WildcardSource (b : Backend) (s3 : S3) (objs : List StoredObject) (src : Url) : Prop where
  pattern : IsPattern src
  wildcard : src.isWildcard = true
  client : b.newS3 src = .ok s3
  serves : Serves urlEncode objs s3 src
  once : ((s3.list src).filterMap fun obj => obj.url).Nodup
  noSpace : ∀ o ∈ objs, src.keyPrefix <+: o.key → ' ' ∉ o.key
  noBase : ∀ o ∈ objs, o.key ≠ treeBase src

section Expansion

variable {b : Backend} {s3 : S3} {objs : List StoredObject} {src dst : Url} {filters : Filters}

/-- A sublist of what a weaker filter keeps. -/
theorem filterMap_sublist_filterMap {α β : Type} {f g : α → Option β}
    (h : ∀ a x, f a = some x → g a = some x) (l : List α) :
    (l.filterMap f).Sublist (l.filterMap g) := by
  induction l with
  | nil => exact List.Sublist.slnil
  | cons a l ih =>
    cases hf : f a with
    | none =>
      rw [List.filterMap_cons_none hf]
      cases hg : g a with
      | none => rwa [List.filterMap_cons_none hg]
      | some x =>
        rw [List.filterMap_cons_some hg]
        exact ih.cons x
    | some x =>
      rw [List.filterMap_cons_some hf, List.filterMap_cons_some (h a x hf)]
      exact ih.cons_cons x

/-- The URL a listing of the wildcard gives an object. -/
def listedUrl (src : Url) (key : Str) : Url :=
  { src with relativePath := src.relativeOf key, path := key }

theorem WildcardSource.shownKey (h : WildcardSource b s3 objs src) {o : StoredObject} (ho : o ∈ objs)
    (hpre : src.keyPrefix <+: o.key) : shownKey o.key = o.key :=
  shownKey_eq_self.mpr (h.noSpace o ho hpre)

/-- What the expansion keeps of the listing. -/
theorem WildcardSource.mem_kept (h : WildcardSource b s3 objs src) {u : Url} :
    u ∈ (s3.list src).filterMap (keptSource filters) ↔
      ∃ o ∈ objs, ∃ r, Picked src filters o r ∧ u = listedUrl src o.key ∧ u.relative = r := by
  rw [List.mem_filterMap]
  constructor
  · rintro ⟨obj, hobj, hkept⟩
    have herr : obj.err = none := by
      by_contra hno
      have hsome : obj.err.isSome = true := by
        cases he : obj.err with
        | none => exact absurd he hno
        | some e => rfl
      rw [keptSource, if_pos hsome] at hkept
      cases hkept
    have hdir : obj.typ.isDir = false := by
      by_contra hno
      have hyes : obj.typ.isDir = true := by simpa using hno
      rw [keptSource, herr] at hkept
      cases hu : obj.url with
      | none => simp [hu] at hkept
      | some u' => simp [hu, hyes] at hkept
    obtain ⟨o, ho, hpre, hm, rfl⟩ := (mem_list_iff h.pattern h.serves herr hdir).mp hobj
    have hshow := h.shownKey ho hpre
    obtain ⟨x, hx, -, hshown⟩ := h.pattern.shownAt_tail hpre hm
    obtain ⟨u', hu', -, -, -, hrel⟩ := relative_listed h.pattern hshown (h.noBase o ho)
    have heq : listedUrl src o.key = u' := by
      rw [StoredObject.listed, hshow] at hu'
      exact Option.some.inj hu'
    have hkept' : filters.shouldSkip (filterKey u') = false ∧ u' = u := by
      rw [keptSource, hu'] at hkept
      by_cases hskip : filters.shouldSkip (filterKey u') = true
      · simp [StoredObject.listed, hskip, ObjectType.isDir] at hkept
      · refine ⟨by simpa using hskip, ?_⟩
        simpa [StoredObject.listed, hskip, ObjectType.isDir] using hkept
    refine ⟨o, ho, _, ⟨?_, ?_, ?_⟩, ?_, rfl⟩
    · rw [← hkept'.2, hrel, ← hshown.shown, hshow]
    · rw [← hshow]
      exact hm
    · rw [← hkept'.2]
      exact hkept'.1
    · rw [heq, hkept'.2]
  · rintro ⟨o, ho, r, hpick, rfl, hrel⟩
    have hpre := h.pattern.keyPrefix_of_isMatch hpick.isMatch
    have hshow := h.shownKey ho hpre
    refine ⟨o.listed src, (mem_list_iff h.pattern h.serves rfl rfl).mpr
      ⟨o, ho, hpre, by rw [hshow]; exact hpick.isMatch, rfl⟩, ?_⟩
    have hskip : filters.shouldSkip (filterKey (listedUrl src o.key)) = false := by
      rw [filterKey, hrel]
      exact hpick.kept
    have hurl : (o.listed src).url = some (listedUrl src o.key) := by
      rw [StoredObject.listed, hshow]
      rfl
    rw [keptSource, hurl]
    simp [StoredObject.listed, hskip, ObjectType.isDir]

/-- The relative key is what `relative` says. -/
theorem WildcardSource.relative_eq (h : WildcardSource b s3 objs src) {o : StoredObject} {r : Str}
    (ho : o ∈ objs) (hpick : Picked src filters o r) : (listedUrl src o.key).relative = r := by
  have hpre := h.pattern.keyPrefix_of_isMatch hpick.isMatch
  have hshown := h.pattern.shownAt_self hpick.key hpick.isMatch (h.noSpace o ho hpre)
  obtain ⟨u, hu, -, -, -, hrel⟩ := relative_listed h.pattern hshown (h.noBase o ho)
  rw [StoredObject.listed, h.shownKey ho hpre] at hu
  obtain rfl := Option.some.inj hu
  exact hrel

/-- The expansion of a wildcard source. -/
theorem WildcardSource.expandSources_eq (h : WildcardSource b s3 objs src) (dst : Url) (follow : Bool)
    (filters : Filters) : expandSources b src dst follow filters =
      .ok (((s3.list src).filterMap (keptSource filters)).map fun u => (u, dst.join u.relative)) := by
  have hversions : expandsVersions src = false := by
    simp [expandsVersions, h.wildcard]
  have hmulti : isMulti b.fs src = true := by
    simp [isMulti, h.wildcard]
  unfold expandSources
  rw [newClient_pattern h.pattern h.client]
  simp [bind, Except.bind, pure, Except.pure, hversions, hmulti, Client.list]

end Expansion

namespace Job

/-! ## The cells of a pair -/

/-- The object at a key of the source bucket, and the one it is transferred to. -/
def pickedCell (src : Url) (key : Str) : Cell := .object false src.bucket key []

def targetCell (job : Job) (dst : Url) (r : Str) : Cell :=
  .object (!job.sameStore) dst.bucket (dst.path ++ r) []

section Cells

variable {job : Job} {w : World} {b : Backend} {s3 : S3} {objs : List StoredObject} {src dst : Url}
  {filters : Filters}

theorem srcCell_listed (hsrc : WildcardSource b s3 objs src) (key : Str) :
    job.srcCell (listedUrl src key) = pickedCell src key := by
  have hremote : (listedUrl src key).isRemote = true := hsrc.pattern.isRemote
  have hversion : src.versionId = [] := by
    rw [hsrc.pattern.parsed]
    rfl
  rw [srcCell, if_pos hremote]
  show Cell.object false src.bucket key src.versionId = _
  rw [hversion]
  rfl

variable (hsrc : WildcardSource b s3 objs src) (hdst : dst.isRemote = true) (key r : Str)
include hsrc hdst

theorem transferOf_listed : job.transferOf w (listedUrl src key, dst.join r) = .copy := by
  have hremote : (listedUrl src key).isRemote = true := hsrc.pattern.isRemote
  have hdst' : (dst.join r).isRemote = true := hdst
  simp [transferOf, hremote, hdst']

theorem writes_listed :
    job.writes w (listedUrl src key, dst.join r) = some (job.targetCell dst r) := by
  have hpath : (dst.join r).path = dst.path ++ r := by rw [Url.join, if_pos hdst]
  simp only [writes, transferOf_listed hsrc hdst key r, Transfer.truncates, Bool.false_eq_true,
    if_false, dstCell, hpath]
  rfl

theorem reads_listed : job.reads w (listedUrl src key, dst.join r) = [pickedCell src key] := by
  simp only [reads, transferOf_listed hsrc hdst key r, srcCell_listed hsrc key, pickedCell]

theorem through_listed : job.through w (listedUrl src key, dst.join r) = [] := by
  simp [through, transferOf_listed hsrc hdst key r, Transfer.truncates]

theorem result_listed : job.result w (listedUrl src key, dst.join r) =
    (w.bytesAt (pickedCell src key)).map .bytes := by
  rw [result, original, transferOf_listed hsrc hdst key r, srcCell_listed hsrc key]
  rfl

end Cells

/-! ## Independence -/

section Independence

variable {job : Job} {w : World} {b : Backend} {s3 : S3} {objs : List StoredObject} {src dst : Url}
  {filters : Filters}

/-- The objects that are written are none of those that are read. -/
def Aside (job : Job) (objs : List StoredObject) (src dst : Url) (filters : Filters) : Prop :=
  ∀ o ∈ objs, ∀ r, Picked src filters o r → ∀ o' ∈ objs, ∀ r', Picked src filters o' r' →
    job.targetCell dst r ≠ pickedCell src o'.key

/-- The pairs of the expansion: each source with its destination. -/
def wildcardPairs (s3 : S3) (src dst : Url) (filters : Filters) : List (Url × Url) :=
  ((s3.list src).filterMap (keptSource filters)).map fun u => (u, dst.join u.relative)

theorem mem_wildcardPairs (hsrc : WildcardSource b s3 objs src) {pr : Url × Url} :
    pr ∈ wildcardPairs s3 src dst filters ↔
      ∃ o ∈ objs, ∃ r, Picked src filters o r ∧ pr = (listedUrl src o.key, dst.join r) := by
  rw [wildcardPairs, List.mem_map]
  constructor
  · rintro ⟨u, hu, rfl⟩
    obtain ⟨o, ho, r, hpick, rfl, hrel⟩ := hsrc.mem_kept.mp hu
    exact ⟨o, ho, r, hpick, by rw [hrel]⟩
  · rintro ⟨o, ho, r, hpick, rfl⟩
    have hrel := hsrc.relative_eq ho hpick
    exact ⟨_, hsrc.mem_kept.mpr ⟨o, ho, r, hpick, rfl, hrel⟩, by rw [hrel]⟩

/-- The transfers of a wildcard are independent. -/
theorem wildcard_independent (hsrc : WildcardSource b s3 objs src) (hdst : dst.isRemote = true)
    (hpairs : job.pairs = wildcardPairs s3 src dst filters) (haside : job.Aside objs src dst filters) :
    job.Independent w := by
  have hchanged : ∀ {key r : Str} {c : Cell},
      c ∈ job.changed w (listedUrl src key, dst.join r) →
        c = job.targetCell dst r ∨ c = pickedCell src key := by
    intro key r c hc
    rcases mem_changed.mp hc with hw | ⟨-, hs⟩
    · rw [writes_listed hsrc hdst] at hw
      exact .inl (Option.some.inj hw).symm
    · exact .inr (hs.trans (srcCell_listed hsrc key))
  have htouched : ∀ {key r : Str} {c : Cell},
      c ∈ job.touched w (listedUrl src key, dst.join r) →
        c = job.targetCell dst r ∨ c = pickedCell src key := by
    intro key r c hc
    rcases mem_touched.mp hc with hw | hr | ⟨x, hx, -⟩
    · rw [writes_listed hsrc hdst] at hw
      exact .inl (Option.some.inj hw).symm
    · rw [reads_listed hsrc hdst] at hr
      exact .inr (List.mem_singleton.mp hr)
    · rw [through_listed hsrc hdst] at hx
      cases hx
  have hapart : ∀ {o o' : StoredObject} {r r' : Str}, o ∈ objs → o' ∈ objs → Picked src filters o r →
      Picked src filters o' r' → o.key ≠ o'.key →
        ∀ c ∈ job.changed w (listedUrl src o.key, dst.join r),
          c ∉ job.touched w (listedUrl src o'.key, dst.join r') := by
    intro o o' r r' ho ho' hpick hpick' hne c hc hc'
    rcases hchanged hc with rfl | rfl <;> rcases htouched hc' with heq | heq
    · have hr : r = r' := by
        injection heq with _ _ hkey
        exact List.append_cancel_left hkey
      exact hne (by rw [hpick.key, hpick'.key, hr])
    · exact haside o ho r hpick o' ho' r' hpick' heq
    · exact haside o' ho' r' hpick' o ho r hpick heq.symm
    · injection heq with _ _ hkey
      exact hne hkey
  refine ⟨lexical_of_remote ?_, ?_, ?_⟩
  · intro pr hpr
    rw [hpairs] at hpr
    obtain ⟨o, ho, r, hpick, rfl⟩ := (mem_wildcardPairs hsrc).mp hpr
    exact ⟨hsrc.pattern.isRemote, hdst⟩
  · rw [hpairs, wildcardPairs, List.pairwise_map]
    have hnodup : ((s3.list src).filterMap (keptSource filters)).Nodup := by
      refine hsrc.once.sublist (filterMap_sublist_filterMap ?_ _)
      intro obj u hu
      unfold keptSource at hu
      split at hu
      · cases hu
      · split at hu
        · cases hu
        · rename_i u' hurl
          split at hu
          · cases hu
          · split at hu
            · cases hu
            · rw [hurl]
              exact hu
    refine hnodup.imp_of_mem ?_
    intro u v hu hv hne
    obtain ⟨o, ho, r, hpick, rfl, hrel⟩ := hsrc.mem_kept.mp hu
    obtain ⟨o', ho', r', hpick', rfl, hrel'⟩ := hsrc.mem_kept.mp hv
    have hkey : o.key ≠ o'.key := fun heq => hne (by rw [heq])
    rw [hrel, hrel']
    exact ⟨hapart ho ho' hpick hpick' hkey, hapart ho' ho hpick' hpick hkey.symm⟩
  · intro pr hpr c hc
    rw [hpairs] at hpr
    obtain ⟨o, ho, r, hpick, rfl⟩ := (mem_wildcardPairs hsrc).mp hpr
    rw [writes_listed hsrc hdst] at hc
    rw [reads_listed hsrc hdst]
    obtain rfl := Option.some.inj (Option.mem_toList.mp hc)
    intro hmem
    exact haside o ho r hpick o ho r hpick (List.mem_singleton.mp hmem)

/-- **A wildcard `cp` or `mv` from end to end.** The sources are expanded, and every
transfer succeeds, in whatever order and by however many workers: each picked object is
found at the destination under its relative key, a moved one is gone from its source, and
everything else is as it was. -/
theorem wildcard_run_outcome (b : Backend) (s3 : S3) (objs : List StoredObject) (src dst : Url)
    (hsrc : WildcardSource b s3 objs src) (hdst : dst.isRemote = true) (follow : Bool)
    (filters : Filters) (job : Job) (hexpand : expandSources b src dst follow filters = .ok job.pairs)
    (haside : job.Aside objs src dst filters) (hdry : job.dryRun = false) (w : World)
    (hheld : ∀ o ∈ objs, ∀ r, Picked src filters o r → (w.bytesAt (pickedCell src o.key)).isSome)
    (sched : List (Pool.Event Event)) (p : CopyPool)
    (hrun : Machine.run (Pool.step job.tasks) { shared := w } sched = some p)
    (hcomplete : Pool.Complete job.tasks p) (hok : ∀ t ∈ p.results, t.2 = .ok ()) :
    (∀ o ∈ objs, ∀ r, Picked src filters o r →
      p.shared (job.targetCell dst r) = w (pickedCell src o.key) ∧
      (job.isMove = true → p.shared (pickedCell src o.key) = none)) ∧
    ∀ c, (∀ o ∈ objs, ∀ r, Picked src filters o r → c ≠ job.targetCell dst r ∧
      (job.isMove = true → c ≠ pickedCell src o.key)) → p.shared c = w c := by
  have hpairs : job.pairs = wildcardPairs s3 src dst filters := by
    rw [hsrc.expandSources_eq] at hexpand
    exact (Except.ok.inj hexpand).symm
  have hind : job.Independent w := wildcard_independent hsrc hdst hpairs haside
  obtain ⟨hclean, hdone⟩ := run_done hind hdry hrun
  refine ⟨?_, ?_⟩
  · intro o ho r hpick
    have hmem : (listedUrl src o.key, dst.join r) ∈ job.pairs := by
      rw [hpairs]
      exact (mem_wildcardPairs hsrc).mpr ⟨o, ho, r, hpick, rfl⟩
    obtain ⟨i, hi⟩ := List.mem_iff_getElem?.mp hmem
    obtain ⟨res, hres⟩ := Pool.exists_result_of_complete hrun hcomplete
      (show i < job.tasks.count from (List.getElem?_eq_some_iff.mp hi).1)
    obtain rfl : res = .ok () := hok _ hres
    obtain ⟨⟨c, hc, hw⟩, hgone⟩ := hdone i _ hi hres
    rw [writes_listed hsrc hdst] at hc
    obtain rfl := Option.some.inj hc
    rw [result_listed hsrc hdst] at hw
    obtain ⟨data, hdata⟩ := Option.isSome_iff_exists.mp (hheld o ho r hpick)
    refine ⟨?_, ?_⟩
    · rw [hw, hdata, World.bytesAt_eq_some.mp hdata]
      rfl
    · intro hmove
      rw [← srcCell_listed hsrc o.key]
      exact hgone hmove
  · intro c hc
    refine hclean c ?_
    intro pr hpr hmem
    rw [hpairs] at hpr
    obtain ⟨o, ho, r, hpick, rfl⟩ := (mem_wildcardPairs hsrc).mp hpr
    obtain ⟨htarget, hpicked⟩ := hc o ho r hpick
    rcases mem_changed.mp hmem with hw | ⟨hmove, hs⟩
    · rw [writes_listed hsrc hdst] at hw
      exact htarget (Option.some.inj hw).symm
    · exact hpicked hmove (hs.trans (srcCell_listed hsrc o.key))

/-- The objects `x/a` and `x/y/b`. -/
def treeObjects : List StoredObject := [{ key := "x/a".toList }, { key := "x/y/b".toList }]

/-- `mv s3://b/x/* s3://c/d/`. -/
def treeMove : Job where
  pairs := okD (expandSources (.serving treeObjects) (.ofString "s3://b/x/*") (.ofString "s3://c/d/")
    true noFilters) []
  dstRemote := true
  pairs_dst := by decide +kernel
  isMove := true
  workers := 2

def treeWorld : World := worldOf [(object "x/a", .bytes [1]), (object "x/y/b", .bytes [2, 3])]

def treeSched : List (Pool.Event Event) :=
  [.start, .start, .work 1 .go, .work 0 .go, .work 1 (.read 1 []), .work 0 (.read 4 []), .work 0 .go,
    .work 1 (.read 1 []), .work 0 .go, .work 1 .go, .work 1 .go]

theorem treePattern : IsPattern (.ofString "s3://b/x/*") :=
  @isPattern_of_parse _ "s3://b/x/*".toList (by decide +kernel) (by decide +kernel) (by decide +kernel)

theorem wildcardSource_sample : WildcardSource (.serving treeObjects)
    (.ofPages [.ok (servedPage treeObjects)]) treeObjects (.ofString "s3://b/x/*") where
  pattern := treePattern
  wildcard := by decide +kernel
  client := rfl
  serves := by
    have hall : ∀ o ∈ treeObjects, (Url.ofString "s3://b/x/*").keyPrefix <+: o.key := by
      decide +kernel
    obtain ⟨s3, hs3, hserves⟩ := @hosts_serving _ (fun _ => ⟨treeObjects, by decide⟩) treeObjects
      treePattern fun o => ⟨fun ho => ⟨ho, hall o ho⟩, fun ho => ho.1⟩
    obtain rfl := Except.ok.inj hs3
    exact hserves
  once := by decide +kernel
  noSpace := by decide +kernel
  noBase := by decide +kernel

/-- Both moves go to their places under `d/`. -/
theorem wildcard_run_outcome_plain :
    ∃ p, Machine.run (Pool.step treeMove.tasks) { shared := treeWorld } treeSched = some p ∧
      p.shared (.object false "c".toList "d/y/b".toList []) = some (.bytes [2, 3]) := by
  have hsome : ∃ p : CopyPool, Machine.run (Pool.step treeMove.tasks) { shared := treeWorld }
      treeSched = some p ∧ Pool.Complete treeMove.tasks p ∧ ∀ t ∈ p.results, t.2.isOk = true :=
    Machine.exists_run_of_any (by decide +kernel)
  obtain ⟨p, hrun, hcomplete, hres⟩ := hsome
  have hok : ∀ t ∈ p.results, t.2 = .ok () := by
    intro t ht
    have h := hres t ht
    cases hr : t.2 with
    | error e => rw [hr] at h; cases h
    | ok _ => rfl
  have haside : treeMove.Aside treeObjects (.ofString "s3://b/x/*") (.ofString "s3://c/d/") noFilters := by
    intro o _ r _ o' _ r' _ heq
    injection heq with _ hbucket
    exact absurd hbucket (by decide +kernel)
  have hheld : ∀ o ∈ treeObjects,
      (treeWorld.bytesAt (pickedCell (.ofString "s3://b/x/*") o.key)).isSome = true := by decide +kernel
  have hpick : Picked (.ofString "s3://b/x/*") noFilters { key := "x/y/b".toList } "y/b".toList :=
    ⟨by decide +kernel, by decide +kernel, by decide +kernel⟩
  have hplace := ((wildcard_run_outcome (.serving treeObjects) (.ofPages [.ok (servedPage treeObjects)])
    treeObjects (.ofString "s3://b/x/*") (.ofString "s3://c/d/") wildcardSource_sample
    (by decide +kernel) true noFilters treeMove (by decide +kernel) haside rfl treeWorld
    (fun o ho _ _ => hheld o ho) treeSched p hrun hcomplete hok).1
    { key := "x/y/b".toList } (by decide) "y/b".toList hpick).1
  refine ⟨p, hrun, ?_⟩
  refine Eq.trans ?_ (hplace.trans (by decide +kernel))
  exact congrArg p.shared (by decide +kernel)

end Independence

end Job

end Rs5cmd
