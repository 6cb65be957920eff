import Rs5cmd.Command.SyncScope

/-!
# Sync plans do not fight themselves

Two questions about the copies of one plan: can a copy go where a deletion
strikes, and can two copies go to the same place. Both depend on the names of
the source objects and on the spelling of the destination only.
-/

namespace Rs5cmd

open LexPath

/-- The destination of a source object, in terms of its name there. -/
def destinationOf (dst : Url) (name : Str) : Url :=
  if dst.isRemote then
    if dst.isPrefix || dst.isBucket then dst.join name else dst
  else dst.join name

theorem generateDestinationUrl_eq (u dst : Url) (isBatch : Bool) :
    generateDestinationUrl u dst isBatch = destinationOf dst (objname u isBatch) := rfl

/-- A key of the source map is the name of an object in it. -/
theorem Keyed.of_mem {isBatch : Bool} {m : ObjectMap} (h : Keyed isBatch m) {k : Str} (hk : k ∈ m) :
    ∃ obj u, m[k]? = some obj ∧ obj.url = some u ∧ objname u isBatch = k := by
  obtain ⟨obj, hobj⟩ := Option.isSome_iff_exists.mp (Std.ExtTreeMap.mem_iff_isSome_getElem?.mp hk)
  obtain ⟨u, hu, hname⟩ := h k obj hobj
  exact ⟨obj, u, hobj, hu, hname⟩

theorem mem_of_getElem? {m : ObjectMap} {k : Str} {obj : Object} (h : m[k]? = some obj) : k ∈ m :=
  Std.ExtTreeMap.mem_iff_isSome_getElem?.mpr (by rw [h]; rfl)

theorem getElem?_none_of_not_mem {m : ObjectMap} {k : Str} (h : k ∉ m) : m[k]? = none := by
  cases hk : m[k]? with
  | none => rfl
  | some obj => exact absurd (mem_of_getElem? hk) h

/-! ## Copies and deletions -/

section Groups

variable {g : GlobCrate} {bs : Backend} {src dst : Url} {args : SyncArgs} {filters : Filters}
  {isBatch : Bool} {source : ObjectMap}

/-- A destination that holds one object, under a name the source has not, has it
deleted. -/
theorem deletion_of_collected (hb : isSourceBatch bs src = .ok isBatch)
    (hs : collectSourceObjects bs src args isBatch filters = .ok source)
    (hdel : args.delete = true) {bd : Backend} {k : Str} {obj : Object} {u : Url}
    (hu : obj.url = some u)
    (hdest : collectDestObjects bd dst filters = .ok ((∅ : ObjectMap).insert k obj))
    (hk : k ∉ source) :
    ∃ plan, syncGroups bs bd src dst args filters = .ok plan ∧
      plan = partition (.new args.sizeOnly args.checksum) dst isBatch true source
        ((∅ : ObjectMap).insert k obj) ∧ u ∈ plan.toDelete := by
  have hgroups := syncGroups_of_collect hb hs hdest
  rw [hdel] at hgroups
  refine ⟨_, hgroups, rfl, ?_⟩
  rw [mem_toDelete (collectSourceObjects_keyed hs).hasUrls]
  exact ⟨k, obj, Std.ExtTreeMap.getElem?_insert_self, hu, getElem?_none_of_not_mem hk⟩

/-- A place outside every source name that the destination can report is struck
by the deletions of some destination, which holds nothing else. -/
theorem exists_deletion (hb : isSourceBatch bs src = .ok isBatch)
    (hs : collectSourceObjects bs src args isBatch filters = .ok source)
    (hdel : args.delete = true) {k : Str} {place : Place} (hrep : Reports g dst k place)
    (hskip : filters.shouldSkip k = false) (hk : k ∉ source) :
    ∃ bd plan obj u, bd.fs.Conforms g ∧ syncGroups bs bd src dst args filters = .ok plan ∧
      plan = partition (.new args.sizeOnly args.checksum) dst isBatch true source
        ((∅ : ObjectMap).insert k obj) ∧
      u ∈ plan.toDelete ∧ u.place = place := by
  obtain ⟨bd, hconf, obj, u, hu, hplace, hdest⟩ := collected_of_reports hrep hskip
  obtain ⟨plan, hgroups, hplan, hmem⟩ := deletion_of_collected hb hs hdel hu hdest hk
  exact ⟨bd, plan, obj, u, hconf, hgroups, hplan, hmem, hplace⟩

/-- Everything a plan deletes is reported under a relative path that is no
source name. -/
theorem reports_of_toDelete {bd : Backend} {plan : SyncPlan} (hconf : bd.fs.Conforms g)
    (hs : collectSourceObjects bs src args isBatch filters = .ok source)
    (hb : isSourceBatch bs src = .ok isBatch)
    (h : syncGroups bs bd src dst args filters = .ok plan) {u : Url} (hu : u ∈ plan.toDelete) :
    args.delete = true ∧
      ∃ k, Reports g dst k u.place ∧ filters.shouldSkip k = false ∧ k ∉ source := by
  obtain ⟨isBatch', source', dest, hb', hs', hd, rfl⟩ := syncGroups_ok h
  rw [hb] at hb'
  obtain rfl := Except.ok.inj hb'
  rw [hs] at hs'
  obtain rfl := Except.ok.inj hs'
  cases hdel : args.delete with
  | false =>
    rw [hdel] at hu
    exact absurd hu List.not_mem_nil
  | true =>
    rw [hdel, mem_toDelete (collectSourceObjects_keyed hs).hasUrls] at hu
    obtain ⟨k, obj, hk, hurl, hnone⟩ := hu
    obtain ⟨hrep, hskip⟩ := reports_of_collected hconf hd hk hurl
    refine ⟨rfl, k, hrep, hskip, ?_⟩
    intro hmem
    have := Std.ExtTreeMap.mem_iff_isSome_getElem?.mp hmem
    rw [hnone] at this
    cases this

end Groups

/-- **Plan disjointness, exactly.** For a source listing and a destination URL no
destination content makes `sync` plan a copy to a place it also plans to delete
iff every relative path under which the destination listing can report the
target of a source object is filtered out or is itself a source name. -/
theorem sync_disjoint_iff (g : GlobCrate) (bs : Backend) (src dst : Url) (args : SyncArgs)
    (filters : Filters) (isBatch : Bool) (source : ObjectMap)
    (hb : isSourceBatch bs src = .ok isBatch)
    (hs : collectSourceObjects bs src args isBatch filters = .ok source) :
    (∀ (bd : Backend) (plan : SyncPlan), bd.fs.Conforms g →
        syncGroups bs bd src dst args filters = .ok plan →
        ∀ p ∈ plan.toCopy, ∀ u ∈ plan.toDelete, p.2.place ≠ u.place) ↔
      (args.delete = true → ∀ name ∈ source, ∀ k, Reports g dst k (destinationOf dst name).place →
        filters.shouldSkip k = false → k ∈ source) := by
  have hkeyed := collectSourceObjects_keyed hs
  constructor
  · intro hdisj hdel name hname k hrep hskip
    by_contra hk
    obtain ⟨bd, plan, obj, u, hconf, hgroups, hplan, hu, hplace⟩ :=
      exists_deletion hb hs hdel hrep hskip hk
    -- the object called `name` has no counterpart there, so it is copied
    obtain ⟨sobj, su, hsobj, hsu, hobjname⟩ := hkeyed.of_mem hname
    have hne : k ≠ name := by
      rintro rfl
      exact hk hname
    have hcopy : (su, generateDestinationUrl su dst isBatch) ∈ plan.toCopy := by
      rw [hplan, mem_toCopy hkeyed.hasUrls]
      refine ⟨name, sobj, hsobj, hsu, rfl, ?_⟩
      rw [Maps.getElem?_insert_of_ne hne]
      simp [Copies]
    refine hdisj bd plan hconf hgroups _ hcopy u hu ?_
    rw [hplace, generateDestinationUrl_eq, hobjname]
  · intro hcond bd plan hconf hgroups p hp u hu hplace
    obtain ⟨hdel, k, hrep, hskip, hk⟩ := reports_of_toDelete hconf hs hb hgroups hu
    obtain ⟨isBatch', source', dest, hb', hs', -, rfl⟩ := syncGroups_ok hgroups
    rw [hb] at hb'
    obtain rfl := Except.ok.inj hb'
    rw [hs] at hs'
    obtain rfl := Except.ok.inj hs'
    obtain ⟨name, obj, hname, hurl, hgen, -⟩ := (mem_toCopy hkeyed.hasUrls).mp hp
    obtain ⟨v, hv, hobjname⟩ := hkeyed name obj hname
    obtain rfl : v = p.1 := Option.some.inj (hv.symm.trans hurl)
    refine hk (hcond hdel name (mem_of_getElem? hname) k ?_ hskip)
    rw [← hplace, hgen, generateDestinationUrl_eq, hobjname] at hrep
    exact hrep

/-- A remote destination without wildcards reads every name back as itself. -/
theorem reports_destinationOf_remote {g : GlobCrate} {raw : Str} {dst : Url}
    (h : Url.parse raw = .ok dst) (hrem : dst.isRemote = true)
    (hlit : hasGlobCharacter dst.path = false) {name k : Str} (hname : name ≠ [])
    (hrep : Reports g dst k (destinationOf dst name).place) : k = name := by
  have hplace : ∀ path : Str, ({ dst with path := path } : Url).place = .remote dst.bucket path := by
    intro path
    have : ({ dst with path := path } : Url).isRemote = true := hrem
    rw [Url.place, if_pos this]
  unfold destinationOf at hrep
  rw [if_pos hrem] at hrep
  split at hrep
  · rename_i hpb
    have hkey : listingKey dst = dst.path := by
      unfold listingKey
      split
      · rename_i hnil
        exact hnil.symm
      · rename_i hne
        rw [if_pos]
        simpa [Url.isPrefix, Url.isBucket, hrem, hne] using hpb
    rw [Url.join, if_pos hrem, hplace, ← hkey] at hrep
    exact reports_remote_literal h hrem hlit hname hrep
  · -- neither prefix nor bucket: the target is not below the listed prefix
    rename_i hpb
    exfalso
    have hne : dst.path ≠ [] := by
      intro hnil
      exact hpb (by simp [Url.isBucket, hrem, hnil])
    have hend : Str.endsWith '/' dst.path = false := by
      simpa [Url.isPrefix, Url.isBucket, hrem, hne] using hpb
    have hkey : listingKey dst = dst.path ++ ['/'] := by
      rw [listingKey, if_neg hne, hend, if_neg (by simp)]
    obtain ⟨lu, hparse, hcase⟩ := hrep
    rw [parse_listing_remote h hrem] at hparse
    obtain rfl := Except.ok.inj hparse
    rw [if_pos (show (Url.parsed .remote "s3".toList dst.bucket (listingKey dst ++ ['*']) {}).isRemote
      = true from rfl)] at hcase
    obtain ⟨key, hpl, hmatch, -⟩ := hcase
    have hpl' : dst.place = .remote dst.bucket dst.path := hplace dst.path
    rw [hpl'] at hpl
    obtain rfl : dst.path = key := (Place.remote.inj hpl).2
    have hlitKey : hasGlobCharacter (dst.path ++ ['/']) = false := by
      simp only [hasGlobCharacter, List.any_append, Bool.or_eq_false_iff] at hlit ⊢
      exact ⟨hlit, by decide⟩
    rw [hkey, Url.isMatch_listing hlitKey rfl] at hmatch
    obtain ⟨t, ht⟩ := hmatch
    have := congrArg List.length ht
    simp at this

/-- The groups of `sync s3://b/* dst` when the bucket holds the given keys. -/
def syncKeys (keys : List String) (bd : Backend) (dst : String) : Except StorageError SyncPlan :=
  syncGroups (.ofKeys keys) bd (.ofString "s3://b/*") (.ofString dst) { delete := true } noFilters

/-- `sync --delete` into `.`: the file `x` is overwritten and deleted, because
the destination listing reports it as `../x`. -/
theorem sync_disjoint_fails :
    (LocalFs.oneMatch "./*".toList "x".toList).Conforms .any ∧
      ∃ p ∈ (okD (syncKeys ["x"] ⟨fun _ => .error .noObjectFound,
          .oneMatch "./*".toList "x".toList⟩ ".") ⟨[], []⟩).toCopy,
        ∃ u ∈ (okD (syncKeys ["x"] ⟨fun _ => .error .noObjectFound,
          .oneMatch "./*".toList "x".toList⟩ ".") ⟨[], []⟩).toDelete,
          p.2.place = .loc "x".toList ∧ u.place = .loc "x".toList := by
  refine ⟨LocalFs.oneMatch_conforms ?_, by decide +kernel⟩
  intro dir _ _ hdir
  obtain rfl : dir = "./".toList := by
    have := congrArg List.dropLast hdir
    simpa using this.symm
  exact ⟨[], "x".toList, rfl, by decide, by decide, by decide, Or.inl rfl, by decide⟩

/-- Into a remote prefix the plan for the same bucket is free of conflicts. -/
theorem sync_disjoint_prefix :
    Url.parse "s3://c/out/".toList = .ok (.ofString "s3://c/out/") ∧
      ∀ (bd : Backend) (plan : SyncPlan), bd.fs.Conforms .any →
        syncKeys ["x"] bd "s3://c/out/" = .ok plan →
        ∀ p ∈ plan.toCopy, ∀ u ∈ plan.toDelete, p.2.place ≠ u.place := by
  have hparse : Url.parse "s3://c/out/".toList = .ok (.ofString "s3://c/out/") := by decide +kernel
  refine ⟨hparse, ?_⟩
  have hs := eq_ok_okD (r := collectSourceObjects (.ofKeys ["x"]) (.ofString "s3://b/*")
    { delete := true } true noFilters) ∅ (by decide +kernel)
  refine (sync_disjoint_iff .any _ _ _ _ _ true _ (by decide +kernel) hs).mpr ?_
  intro _ name hname k hrep _
  have hkeys : (okD (collectSourceObjects (.ofKeys ["x"]) (.ofString "s3://b/*")
      { delete := true } true noFilters) ∅).keys = ["x".toList] := by decide +kernel
  have hx : name = "x".toList := by
    have := Std.ExtTreeMap.mem_keys.mpr hname
    rw [hkeys] at this
    exact List.mem_singleton.mp this
  have hk := reports_destinationOf_remote hparse (by decide +kernel) (by decide +kernel)
    (by rw [hx]; decide) hrep
  rw [hk]
  exact hname

/-! ## Copies among themselves -/

/-- The destination keeps two source names apart: a prefix or bucket always
does, a remote destination that is neither never does, and a local directory
does iff the names lead to different locations below it. -/
def KeepsApart (dst : Url) (a b : Str) : Prop :=
  if dst.isRemote then dst.isPrefix = true ∨ dst.isBucket = true
  else if dst.path = [] then locOf a ≠ locOf b
  else (locOf dst.path).walk (segsOf a) ≠ (locOf dst.path).walk (segsOf b)

theorem place_destinationOf_ne_iff (dst : Url) {a b : Str} (hab : a ≠ b) :
    (destinationOf dst a).place ≠ (destinationOf dst b).place ↔ KeepsApart dst a b := by
  unfold destinationOf KeepsApart
  cases hrem : dst.isRemote with
  | true =>
    have hkind : dst.kind = .remote := by simpa [Url.isRemote] using hrem
    by_cases hpb : (dst.isPrefix || dst.isBucket) = true
    · have hpb' : dst.isPrefix = true ∨ dst.isBucket = true := by simpa using hpb
      simp [hpb, hpb', Url.place, Url.join, Url.isRemote, hkind, hab]
    · have hpb' : ¬ (dst.isPrefix = true ∨ dst.isBucket = true) := by simpa using hpb
      simp only [if_true, hpb, Bool.false_eq_true, if_false, hpb', ne_eq, not_true_eq_false]
  | false =>
    have hkind : (dst.kind == .remote) = false := hrem
    simp only [Bool.false_eq_true, if_false, Url.place, Url.isRemote, Url.join, hkind]
    rw [Ne, Place.loc.injEq, cleanPath_eq_iff, locOf_pathJoin, locOf_pathJoin]
    split <;> rfl

/-- A filesystem in which every pattern matches one empty directory. -/
def LocalFs.emptySubdir : LocalFs where
  symlinkMetadata _ := .ok ⟨.dir, 0, none⟩
  metadata _ := .ok ⟨.dir, 0, none⟩
  glob _ := .ok [.ok "sub".toList]
  walkDir _ _ := []
  md5Hex _ := none

theorem LocalFs.list_emptySubdir {lu : Url} (hwild : lu.isWildcard = true) :
    LocalFs.emptySubdir.list lu false = [] := by
  have hnew : Url.new "sub".toList {} = .ok (Url.parsed .loc [] [] "sub".toList {}) := by
    have hnone : Str.splitOnce "://".toList "sub".toList = none := by decide
    rw [Url.new, hnone]
    exact Url.setPrefixAndFilter_blank _ _ _ _ rfl
  simp only [LocalFs.list, hwild, if_true, LocalFs.expandGlob, LocalFs.emptySubdir,
    LocalFs.globEntries, hnew, LocalFs.statSync, ObjectType.isDir, LocalFs.walk,
    LocalFs.shouldProcessUrl, LocalFs.walkEntries]
  rfl

/-- Some destination content is collected as an empty map. -/
theorem exists_emptyDest (dst : Url) (filters : Filters) :
    ∃ bd : Backend, collectDestObjects bd dst filters = .ok ∅ := by
  refine ⟨⟨fun _ => .error .noObjectFound, .emptySubdir⟩, ?_⟩
  unfold collectDestObjects
  cases hparse : Url.parse (listingPath dst) with
  | error e => rfl
  | ok lu =>
    cases hrem : lu.isRemote with
    | true => simp [Backend.newClient, hrem, Except.map]
    | false =>
      have hlist := LocalFs.list_emptySubdir (listing_isWildcard hparse hrem)
      simp [Backend.newClient, hrem, Client.list, hlist, collectDestListed]

/-- **Distinct destinations, exactly.** The destinations a sync run computes for
distinct objects of a batch source are pairwise distinct, whatever the
destination holds, iff the destination keeps the source names apart. -/
theorem sync_destinations_distinct_iff (bs : Backend) (src dst : Url) (args : SyncArgs)
    (filters : Filters) (source : ObjectMap) (hb : isSourceBatch bs src = .ok true)
    (hs : collectSourceObjects bs src args true filters = .ok source) :
    (∀ (bd : Backend) (plan : SyncPlan), syncGroups bs bd src dst args filters = .ok plan →
        ∀ p ∈ plan.toCopy, ∀ q ∈ plan.toCopy, p.1 ≠ q.1 → p.2.place ≠ q.2.place) ↔
      (∀ a ∈ source, ∀ b ∈ source, a ≠ b → KeepsApart dst a b) := by
  have hkeyed := collectSourceObjects_keyed hs
  constructor
  · intro hdist a ha b hbm hab
    obtain ⟨bd, hempty⟩ := exists_emptyDest dst filters
    have hgroups := syncGroups_of_collect hb hs hempty
    -- with nothing at the destination, both objects are copied
    have hcopied : ∀ name ∈ source, ∃ u, objname u true = name ∧
        (u, generateDestinationUrl u dst true) ∈
          (partition (.new args.sizeOnly args.checksum) dst true args.delete source ∅).toCopy := by
      intro name hname
      obtain ⟨obj, u, hobj, hu, hobjname⟩ := hkeyed.of_mem hname
      refine ⟨u, hobjname, ?_⟩
      rw [mem_toCopy hkeyed.hasUrls]
      exact ⟨name, obj, hobj, hu, rfl, by simp [Copies]⟩
    obtain ⟨u, hu, hcu⟩ := hcopied a ha
    obtain ⟨v, hv, hcv⟩ := hcopied b hbm
    have huv : u ≠ v := by
      rintro rfl
      exact hab (hu.symm.trans hv)
    have hne := hdist bd _ hgroups _ hcu _ hcv huv
    rw [generateDestinationUrl_eq, generateDestinationUrl_eq, hu, hv] at hne
    exact (place_destinationOf_ne_iff dst hab).mp hne
  · intro hapart bd plan hgroups p hp q hq hpq
    obtain ⟨isBatch', source', dest, hb', hs', -, rfl⟩ := syncGroups_ok hgroups
    rw [hb] at hb'
    obtain rfl := Except.ok.inj hb'
    rw [hs] at hs'
    obtain rfl := Except.ok.inj hs'
    obtain ⟨a, oa, hoa, hua, hgena, -⟩ := (mem_toCopy hkeyed.hasUrls).mp hp
    obtain ⟨b, ob, hob, hub, hgenb, -⟩ := (mem_toCopy hkeyed.hasUrls).mp hq
    obtain ⟨va, hva, hna⟩ := hkeyed a oa hoa
    obtain ⟨vb, hvb, hnb⟩ := hkeyed b ob hob
    obtain rfl : va = p.1 := Option.some.inj (hva.symm.trans hua)
    obtain rfl : vb = q.1 := Option.some.inj (hvb.symm.trans hub)
    have hab : a ≠ b := by
      rintro rfl
      obtain rfl : oa = ob := Option.some.inj (hoa.symm.trans hob)
      exact hpq (Option.some.inj (hua.symm.trans hub))
    rw [hgena, hgenb, generateDestinationUrl_eq, generateDestinationUrl_eq, hna, hnb]
    exact (place_destinationOf_ne_iff dst hab).mpr
      (hapart a (mem_of_getElem? hoa) b (mem_of_getElem? hob) hab)

/-- Two objects synced to a remote destination without a trailing slash are
both copied to it. -/
theorem sync_destinations_collide :
    ∃ p ∈ (okD (syncKeys ["x", "y"] (.ofKeys []) "s3://c/out") ⟨[], []⟩).toCopy,
      ∃ q ∈ (okD (syncKeys ["x", "y"] (.ofKeys []) "s3://c/out") ⟨[], []⟩).toCopy,
        p.1 ≠ q.1 ∧ p.2.place = q.2.place := by
  decide +kernel

/-- With the trailing slash they are kept apart. -/
theorem sync_destinations_prefix :
    (Url.ofString "s3://c/out/").isPrefix = true ∧
      ∀ (bd : Backend) (plan : SyncPlan), syncKeys ["x", "y"] bd "s3://c/out/" = .ok plan →
        ∀ p ∈ plan.toCopy, ∀ q ∈ plan.toCopy, p.1 ≠ q.1 → p.2.place ≠ q.2.place := by
  have hpre : (Url.ofString "s3://c/out/").isPrefix = true := by decide +kernel
  refine ⟨hpre, ?_⟩
  have hs := eq_ok_okD (r := collectSourceObjects (.ofKeys ["x", "y"]) (.ofString "s3://b/*")
    { delete := true } true noFilters) ∅ (by decide +kernel)
  refine (sync_destinations_distinct_iff _ _ _ _ _ _ (by decide +kernel) hs).mpr ?_
  intro a _ b _ _
  rw [KeepsApart, if_pos (show (Url.ofString "s3://c/out/").isRemote = true by decide +kernel)]
  exact Or.inl hpre

end Rs5cmd
