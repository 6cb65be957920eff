import Rs5cmd.Theorems.Containment
import Rs5cmd.Theorems.SyncListing

/-!
# The relative paths of a remote wildcard

`matches` sets the relative path of a key to what follows the last slash before the
first wildcard. An empty relative path means that none is set, so the one key for
which nothing follows, the marker of that directory itself, comes out with its
absolute URL instead.
-/

namespace Rs5cmd

/-! ## Wildcard URLs, with any options -/

/-- A remote URL as parsing fills it in from a path with a wildcard. -/
structure IsWildcardUrl (w : Url) : Prop where
  remote : w.isRemote = true
  keyPrefix_eq : w.keyPrefix = Url.literalPart w.path
  filter_ne : w.filter ≠ []
  regex : w.filterRegex = some ⟨Url.filterToks w.path⟩
  scheme : w.scheme = "s3".toList

section Wildcard

variable {w : Url}

theorem isWildcardUrl_of_new {s : Str} {opts : UrlOptions} (h : Url.new s opts = .ok w)
    (hrem : w.isRemote = true) (hwild : w.isWildcard = true) : IsWildcardUrl w := by
  have hraw : opts.raw = false := by
    by_contra hraw
    have hraw : opts.raw = true := by simpa using hraw
    -- a raw URL has no wildcards
    have hset : ∀ kind scheme bucket path, Url.setPrefixAndFilter
        (Url.blank kind scheme bucket path opts) = .ok (Url.blank kind scheme bucket path opts) := by
      intro kind scheme bucket path
      simp [Url.setPrefixAndFilter, Url.blank, hraw]
    have hblank : ∃ kind scheme bucket path, w = Url.blank kind scheme bucket path opts := by
      unfold Url.new at h
      simp only [hset] at h
      split at h
      · exact ⟨_, _, _, _, (Except.ok.inj h).symm⟩
      · split at h
        · cases h
        · split at h
          · cases h
          · split at h
            · cases h
            · exact ⟨_, _, _, _, (Except.ok.inj h).symm⟩
    obtain ⟨_, _, _, _, rfl⟩ := hblank
    simp [Url.isWildcard, Url.blank, hraw] at hwild
  rcases Url.new_eq_ok hraw h with ⟨-, rfl⟩ | ⟨_, bucket, key, -, -, -, -, rfl⟩
  · cases hrem
  · refine ⟨rfl, rfl, ?_, rfl, rfl⟩
    intro hnil
    simp only [Url.isWildcard, Bool.and_eq_true, hasGlobCharacter, List.any_eq_true] at hwild
    obtain ⟨-, c, hc, hglob⟩ := hwild
    have := List.dropWhile_eq_nil_iff.mp hnil c hc
    simp [hglob] at this

/-- The relative path of a matching key is what follows the base of the tree. -/
theorem IsWildcardUrl.relativeOf_eq (h : IsWildcardUrl w) {key : Str} (hm : w.isMatch key = true) :
    ∃ r, key = treeBase w ++ r ∧ w.relativeOf key = r := by
  have hpre : w.keyPrefix <+: key := by
    simp only [Url.isMatch, h.regex, Regex.isMatch, Url.filterToks] at hm
    obtain ⟨t, ht, -⟩ := (matchToks_lits _ _ _).mp hm
    exact ⟨t, by rw [h.keyPrefix_eq, ht]⟩
  have hstart : Str.startsWith w.keyPrefix key = true := by simpa [Str.startsWith] using hpre
  rw [Url.relativeOf, if_pos h.filter_ne, Url.parseBatch]
  rcases treeBase_cases w with ⟨hnot, hnil⟩ | ⟨a, b, hab, hb, hbase⟩
  · rw [Str.rfind_eq_none.mpr hnot, hnil]
    exact ⟨key, rfl, rfl⟩
  · have hfind : Str.rfind '/' w.keyPrefix = some a.length :=
      Str.rfind_eq_some.mpr ⟨a, b, hab, hb, rfl⟩
    obtain ⟨t, ht⟩ := hpre
    have hkey : key = a ++ ['/'] ++ (b ++ t) := by
      rw [← ht, hab]
      simp
    have hdrop : key.drop a.length = ['/'] ++ (b ++ t) := by
      rw [hkey]
      simp
    refine ⟨b ++ t, by rw [hbase, hkey], ?_⟩
    simp only [hfind, hstart, Bool.not_true, Bool.false_eq_true, if_false, hdrop,
      Str.trimPrefix_append]

theorem IsWildcardUrl.absolute_ne_nil (h : IsWildcardUrl w) {v : Url} (hkind : v.kind = w.kind)
    (hscheme : v.scheme = w.scheme) : v.absolute ≠ [] := by
  have hrem : v.isRemote = true := by
    have := h.remote
    rwa [Url.isRemote, ← hkind] at this
  rw [Url.absolute, if_pos hrem, Url.remoteUrl, hscheme, h.scheme]
  simp

end Wildcard

/-! ## Pairs -/

/-- A URL as a listing of `src` reports it, for some key that matches. -/
structure ListedUrl (src v : Url) : Prop where
  isMatch : src.isMatch v.path = true
  relativePath_eq : v.relativePath = src.relativeOf v.path
  kind_eq : v.kind = src.kind
  scheme_eq : v.scheme = src.scheme

theorem listedUrl_of_mem_list {s3 : S3} {src v : Url} {obj : Object} (h : obj ∈ s3.list src)
    (herr : obj.err = none) (hv : obj.url = some v) : ListedUrl src v := by
  rcases S3.listedFrom h with hsome | ⟨-, raw, u, hraw, hurl⟩
  · rw [herr] at hsome
    cases hsome
  · obtain ⟨hmatch, rfl⟩ := Url.listed_eq_some.mp hraw
    rcases hurl with hurl | ⟨vid, hurl⟩
    · rw [← Option.some.inj (hurl.symm.trans hv)]
      exact ⟨hmatch, rfl, rfl, rfl⟩
    · rw [← Option.some.inj (hurl.symm.trans hv)]
      exact ⟨hmatch, rfl, rfl, rfl⟩

/-- The law for a list of pairs: after the base of the tree, each source has its
relative path, which the destination has after the destination's path; and other
keys go to other destinations. -/
structure SuffixLaw (src dst : Url) (pairs : List (Url × Url)) : Prop where
  suffix : ∀ pr ∈ pairs, ∃ r, pr.1.path = treeBase src ++ r ∧ pr.1.relative = r ∧
    pr.2 = { dst with path := dst.path ++ r }
  distinct : ∀ pr ∈ pairs, ∀ pr' ∈ pairs, pr.1.path ≠ pr'.1.path → pr.2.path ≠ pr'.2.path

section Pairs

variable {src dst : Url} {pairs : List (Url × Url)}

/-- The relative path of a listed URL, unless it is the base of the tree. -/
theorem IsWildcardUrl.relative_listed (hsrc : IsWildcardUrl src) {v : Url} (hv : ListedUrl src v)
    (hbase : v.path ≠ treeBase src) : v.path = treeBase src ++ v.relative := by
  obtain ⟨r, hkey, hrel⟩ := hsrc.relativeOf_eq hv.isMatch
  have hr : r ≠ [] := by
    rintro rfl
    rw [List.append_nil] at hkey
    exact hbase hkey
  rw [Url.relative, hv.relativePath_eq, hrel, if_pos hr]
  exact hkey

/-- The base of the tree, listed as a key, has its absolute URL for a relative path. -/
theorem IsWildcardUrl.relative_listed_ne (hsrc : IsWildcardUrl src) {v : Url} (hv : ListedUrl src v) :
    v.relative ≠ [] := by
  unfold Url.relative
  split
  · assumption
  · exact hsrc.absolute_ne_nil hv.kind_eq hv.scheme_eq

theorem suffixLaw_iff (hsrc : IsWildcardUrl src)
    (hpairs : ∀ pr ∈ pairs, ListedUrl src pr.1 ∧
      pr.2 = { dst with path := dst.path ++ pr.1.relative }) :
    SuffixLaw src dst pairs ↔ ∀ pr ∈ pairs, pr.1.path ≠ treeBase src := by
  constructor
  · intro h pr hpr hbase
    obtain ⟨r, hkey, hrel, -⟩ := h.suffix pr hpr
    have hnil : r = [] := by
      rw [hbase] at hkey
      simpa using hkey
    rw [hnil] at hrel
    exact hsrc.relative_listed_ne (hpairs pr hpr).1 hrel
  · intro h
    have hkey : ∀ pr ∈ pairs, pr.1.path = treeBase src ++ pr.1.relative := fun pr hpr =>
      hsrc.relative_listed (hpairs pr hpr).1 (h pr hpr)
    refine ⟨fun pr hpr => ⟨_, hkey pr hpr, rfl, (hpairs pr hpr).2⟩, ?_⟩
    intro pr hpr pr' hpr' hne heq
    rw [(hpairs pr hpr).2, (hpairs pr' hpr').2] at heq
    apply hne
    rw [hkey pr hpr, hkey pr' hpr', List.append_cancel_left heq]

/-- The pairs of `cp` and `mv`. -/
theorem expandSources_listed (hsrc : IsWildcardUrl src) (hwild : src.isWildcard = true)
    (hdst : dst.isRemote = true) {b : Backend} {follow : Bool} {filters : Filters}
    (h : expandSources b src dst follow filters = .ok pairs) {pr : Url × Url} (hpr : pr ∈ pairs) :
    ListedUrl src pr.1 ∧ pr.2 = { dst with path := dst.path ++ pr.1.relative } := by
  have hmulti : isMulti b.fs src = true := by simp [isMulti, hwild]
  have hversions : expandsVersions src = false := by simp [expandsVersions, hwild]
  unfold expandSources at h
  cases hc : b.newClient src with
  | error e =>
    rw [hc] at h
    cases h
  | ok client =>
    obtain ⟨s3, -, rfl⟩ := newClient_remote hsrc.remote hc
    rw [hc] at h
    obtain rfl : ((s3.list src).filterMap (keptSource filters)).map
        (fun u => (u, dst.join u.relative)) = pairs := by
      simpa [hmulti, hversions, Client.list, bind, Except.bind, pure, Except.pure] using h
    obtain ⟨u, hu, rfl⟩ := List.mem_map.mp hpr
    obtain ⟨obj, hobj, hkept⟩ := List.mem_filterMap.mp hu
    have hfacts : obj.err = none ∧ obj.url = some u := by
      unfold keptSource at hkept
      split at hkept
      · cases hkept
      · rename_i herr
        split at hkept
        · cases hkept
        · rename_i v hv
          split at hkept
          · cases hkept
          · split at hkept
            · cases hkept
            · rw [← Option.some.inj hkept]
              exact ⟨by simpa using herr, hv⟩
    refine ⟨listedUrl_of_mem_list hobj hfacts.1 hfacts.2, ?_⟩
    simp [Url.join, hdst]

/-- The copies of `sync`. -/
theorem toCopy_listed (hsrc : IsWildcardUrl src) (hwild : src.isWildcard = true)
    (hdst : dst.isRemote = true) (hdir : dst.isPrefix = true ∨ dst.isBucket = true)
    {bs bd : Backend} {args : SyncArgs} {filters : Filters} {plan : SyncPlan}
    (h : syncGroups bs bd src dst args filters = .ok plan) {pr : Url × Url} (hpr : pr ∈ plan.toCopy) :
    ListedUrl src pr.1 ∧ pr.2 = { dst with path := dst.path ++ pr.1.relative } := by
  obtain ⟨isBatch, source, dest, hb, hs, -, rfl⟩ := syncGroups_ok h
  have hbatch : isBatch = true := by
    have : isSourceBatch bs src = .ok true := by simp [isSourceBatch, hwild]
    rw [this] at hb
    exact (Except.ok.inj hb).symm
  subst hbatch
  obtain ⟨k, obj, hk, hurl, hgen, -⟩ := (mem_toCopy (collectSourceObjects_keyed hs).hasUrls).mp hpr
  have hdest : pr.2 = { dst with path := dst.path ++ pr.1.relative } := by
    rw [hgen, generateDestinationUrl, if_pos hdst, if_pos (by simpa using hdir)]
    simp [Url.join, hdst, objname]
  refine ⟨?_, hdest⟩
  unfold collectSourceObjects at hs
  cases hc : bs.newClient src with
  | error e =>
    rw [hc] at hs
    cases hs
  | ok client =>
    obtain ⟨s3, -, rfl⟩ := newClient_remote hsrc.remote hc
    rw [hc] at hs
    have hloop : collectListed bs.fs src filters args.checksum args.forceGlacierTransfer
      (s3.list src) ∅ = .ok source := hs
    rcases collectListed_value hloop hk with hnone | ⟨o, ho, u, hkept, rfl⟩
    · simp at hnone
    · obtain ⟨-, -, hu, -, -⟩ := keptKey_eq_some.mp hkept
      rw [fillChecksum_url, hu] at hurl
      obtain rfl := Option.some.inj hurl
      exact listedUrl_of_mem_list ho ((collectListed_ok hloop).1 o ho) hu

end Pairs

/-- **The relative law of remote wildcards, exactly.** What follows the base of the
tree in a matching key is its relative path, and comes out after the path of a remote
directory, different for different keys, iff the key is not that base itself. -/
theorem wildcard_relative_iff (s : Str) (opts : UrlOptions) (src dst : Url)
    (hsrc : Url.new s opts = .ok src) (hrem : src.isRemote = true) (hwild : src.isWildcard = true)
    (hdst : dst.isRemote = true) (hdir : dst.isPrefix = true ∨ dst.isBucket = true) :
    (∀ key v, src.matches? key = some v →
      (treeBase src ++ v.relative = key ↔ key ≠ treeBase src)) ∧
    (∀ (b : Backend) (follow : Bool) (filters : Filters) (pairs : List (Url × Url)),
      expandSources b src dst follow filters = .ok pairs →
      (SuffixLaw src dst pairs ↔ ∀ pr ∈ pairs, pr.1.path ≠ treeBase src)) ∧
    (∀ (bs bd : Backend) (args : SyncArgs) (filters : Filters) (plan : SyncPlan),
      syncGroups bs bd src dst args filters = .ok plan →
      (SuffixLaw src dst plan.toCopy ↔ ∀ pr ∈ plan.toCopy, pr.1.path ≠ treeBase src)) := by
  have hw := isWildcardUrl_of_new hsrc hrem hwild
  refine ⟨?_, ?_, ?_⟩
  · intro key v hv
    unfold Url.matches? at hv
    split at hv
    · rename_i hm
      obtain rfl := Option.some.inj hv
      obtain ⟨r, hkey, hrel⟩ := hw.relativeOf_eq hm
      rw [Url.relative, hrel]
      by_cases hr : r = []
      · -- nothing is left of the key
        rw [hr, List.append_nil] at hkey
        simp only [hr, ne_eq, not_true_eq_false, if_false]
        constructor
        · intro h
          have hnil : ({ src with relativePath := [] } : Url).absolute = [] := by
            rw [hkey] at h
            simpa using h
          exact absurd hnil (hw.absolute_ne_nil rfl rfl)
        · intro h
          exact absurd hkey h
      · rw [if_pos hr]
        constructor
        · intro _ hbase
          rw [hbase] at hkey
          exact hr (by simpa using hkey)
        · intro _
          exact hkey.symm
    · cases hv
  · intro b follow filters pairs hpairs
    exact suffixLaw_iff hw fun pr hpr => expandSources_listed hw hwild hdst hpairs hpr
  · intro bs bd args filters plan hplan
    exact suffixLaw_iff hw fun pr hpr => toCopy_listed hw hwild hdst hdir hplan hpr

/-- The keys below `d/` are copied from a bucket that holds `d/a`. -/
theorem wildcard_relative_plain :
    ∃ pairs, expandSources (.ofKeys ["d/a"]) (.ofString "s3://b/d/*") (.ofString "s3://c/x/") true
        noFilters = .ok pairs ∧ pairs ≠ [] ∧
      SuffixLaw (.ofString "s3://b/d/*") (.ofString "s3://c/x/") pairs := by
  refine ⟨_, rfl, by decide +kernel, ?_⟩
  have hlaw := wildcard_relative_iff "s3://b/d/*".toList {} (.ofString "s3://b/d/*")
    (.ofString "s3://c/x/") (by decide +kernel) (by decide +kernel) (by decide +kernel)
    (by decide +kernel) (Or.inl (by decide +kernel))
  exact (hlaw.2.1 (.ofKeys ["d/a"]) true noFilters _ rfl).mpr (by decide +kernel)

/-- The marker `d/` matches `s3://b/d/*`. Nothing follows `d/` in it, so its relative
path is its URL, and it is copied to `x/s3://b/d/`. -/
theorem marker_goes_to_url :
    (∃ v, (Url.ofString "s3://b/d/*").matches? "d/".toList = some v ∧
      treeBase (.ofString "s3://b/d/*") ++ v.relative ≠ "d/".toList) ∧
    ∃ pairs, expandSources (.ofKeys ["d/"]) (.ofString "s3://b/d/*") (.ofString "s3://c/x/") true
        noFilters = .ok pairs ∧ pairs.map (fun pr => pr.2.path) = ["x/s3://b/d/".toList] ∧
      ¬ SuffixLaw (.ofString "s3://b/d/*") (.ofString "s3://c/x/") pairs := by
  refine ⟨⟨_, rfl, by decide +kernel⟩, _, rfl, by decide +kernel, ?_⟩
  intro h
  obtain ⟨r, hkey, -, hdst⟩ := h.suffix _ List.mem_cons_self
  have hr : r = [] := by
    have hbase : treeBase (.ofString "s3://b/d/*") = "d/".toList := by decide +kernel
    rw [hbase] at hkey
    exact (List.append_right_eq_self.mp hkey.symm)
  rw [hr] at hdst
  exact absurd (congrArg Url.path hdst) (by decide +kernel)

end Rs5cmd
