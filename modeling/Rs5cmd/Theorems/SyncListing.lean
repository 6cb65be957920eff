import Rs5cmd.Theorems.SyncDelete
import Rs5cmd.Storage.S3.Bucket

/-!
# What a complete listing of a wildcard URL shows

Source and destination of a remote `sync` are listed through wildcard URLs. From
the objects of the bucket: the names and sizes that the two collection loops put
into their maps.
-/

namespace Rs5cmd

/-! ## Wildcard URLs -/

/-- A remote URL as parsing fills it in from a path with a wildcard. -/
structure IsPattern (w : Url) : Prop where
  parsed : w = Url.parsed .remote "s3".toList w.bucket w.path {}
  glob : Url.globPart w.path ≠ []

section Pattern

variable {w : Url}

theorem isPattern_of_parse {raw : Str} (h : Url.parse raw = .ok w) (hrem : w.isRemote = true)
    (hw : w.isWildcard = true) : IsPattern w := by
  rw [Url.isWildcard, Bool.and_eq_true] at hw
  exact ⟨(Url.remote_of_new rfl h hrem).1, Url.globPart_ne_nil hw.2⟩

namespace IsPattern

theorem isRemote (h : IsPattern w) : w.isRemote = true := by
  rw [h.parsed]
  rfl

theorem keyPrefix_eq (h : IsPattern w) : w.keyPrefix = Url.literalPart w.path :=
  congrArg Url.keyPrefix h.parsed

theorem isVersioned (h : IsPattern w) : w.isVersioned = false := by
  rw [h.parsed]
  rfl

/-- A key that matches starts with the literal part of the pattern. -/
theorem keyPrefix_of_isMatch (h : IsPattern w) {key : Str} (hm : w.isMatch key = true) :
    w.keyPrefix <+: key := by
  have hre : w.filterRegex = some ⟨Url.filterToks w.path⟩ := congrArg Url.filterRegex h.parsed
  simp only [Url.isMatch, hre, Regex.isMatch, Url.filterToks] at hm
  obtain ⟨t, ht, -⟩ := (matchToks_lits _ _ _).mp hm
  exact ⟨t, by rw [h.keyPrefix_eq, ht]⟩

/-- A wildcard listing is recursive. -/
theorem covers_iff (h : IsPattern w) {key : Str} :
    (listV2Request w).Covers key ↔ w.keyPrefix <+: key := by
  have hdelim : w.delimiter = [] := by
    rw [h.parsed]
    exact if_neg h.glob
  constructor
  · intro hcov
    exact hcov.1
  · intro hpre
    refine ⟨hpre, ?_⟩
    intro d hd
    simp [listV2Request, hdelim, nonEmpty] at hd

end IsPattern

/-- The base of the tree is the literal part up to its last slash. -/
theorem treeBase_cases (w : Url) :
    '/' ∉ w.keyPrefix ∧ treeBase w = [] ∨
      ∃ a b, w.keyPrefix = a ++ '/' :: b ∧ '/' ∉ b ∧ treeBase w = a ++ ['/'] := by
  unfold treeBase
  cases hfind : Str.rfind '/' w.keyPrefix with
  | none =>
    have hnot := Str.rfind_eq_none.mp hfind
    refine .inl ⟨hnot, ?_⟩
    simpa using rdropWhile_append_name hnot (.inl rfl)
  | some i =>
    obtain ⟨a, b, hab, hb, -⟩ := Str.rfind_eq_some.mp hfind
    refine .inr ⟨a, b, hab, hb, ?_⟩
    have hparent : a ++ ['/'] = [] ∨ Str.endsWith '/' (a ++ ['/']) = true := .inr (by simp [Str.endsWith])
    rw [hab, show a ++ '/' :: b = a ++ ['/'] ++ b by simp]
    exact rdropWhile_append_name hb hparent

theorem treeBase_prefix (w : Url) : treeBase w <+: w.keyPrefix := by
  rcases treeBase_cases w with ⟨-, hnil⟩ | ⟨a, b, hab, -, hbase⟩
  · rw [hnil]
    exact List.nil_prefix
  · rw [hbase, hab]
    exact ⟨b, by simp⟩

/-- The relative path of a listed key is what follows the base of the tree. -/
theorem IsPattern.remoteKey_append (h : IsPattern w) {r : Str} (hpre : w.keyPrefix <+: treeBase w ++ r)
    (hr : r ≠ []) : remoteKey w (treeBase w ++ r) = r := by
  have hrel : w.relativeOf (treeBase w ++ r) = r := by
    have hfilter : w.filter ≠ [] := by
      rw [show w.filter = Url.globPart w.path from congrArg Url.filter h.parsed]
      exact h.glob
    rw [Url.relativeOf, if_pos hfilter, Url.parseBatch]
    rcases treeBase_cases w with ⟨hnot, hnil⟩ | ⟨a, b, hab, hb, hbase⟩
    · rw [Str.rfind_eq_none.mpr hnot, hnil]
      rfl
    · have hfind : Str.rfind '/' w.keyPrefix = some a.length :=
        Str.rfind_eq_some.mpr ⟨a, b, hab, hb, rfl⟩
      have hstart : Str.startsWith w.keyPrefix (treeBase w ++ r) = true := by
        simpa [Str.startsWith] using hpre
      have hdrop : (treeBase w ++ r).drop a.length = ['/'] ++ r := by
        rw [hbase]
        simp
      simp only [hfind, hstart, Bool.not_true, Bool.false_eq_true, if_false, hdrop,
        Str.trimPrefix_append]
  rw [remoteKey, hrel, Url.relative, if_pos hr]

/-! ## Objects as they are shown -/

/-- A listing of `w` shows the object at the relative path `r`. -/
structure ShownAt (w : Url) (o : StoredObject) (r : Str) : Prop where
  covered : w.keyPrefix <+: o.key
  isMatch : w.isMatch (shownKey o.key) = true
  shown : shownKey o.key = treeBase w ++ r

/-- What a listing shows starts, as it is stored, with the base of the tree,
which has no space in it. -/
theorem IsPattern.shownAt_tail (h : IsPattern w) {o : StoredObject} (hcov : w.keyPrefix <+: o.key)
    (hm : w.isMatch (shownKey o.key) = true) :
    ∃ x, o.key = treeBase w ++ x ∧ ' ' ∉ w.keyPrefix ∧ ShownAt w o (shownKey x) := by
  obtain ⟨t, ht⟩ := hcov
  obtain ⟨x, hx⟩ := treeBase_prefix w
  have hsame : shownKey w.keyPrefix = w.keyPrefix := by
    obtain ⟨t', ht'⟩ := h.keyPrefix_of_isMatch hm
    rw [← ht, shownKey_append] at ht'
    exact (List.append_inj_left ht' (by simp [shownKey])).symm
  have hspace := shownKey_eq_self.mp hsame
  have hbase : shownKey (treeBase w) = treeBase w := by
    refine shownKey_eq_self.mpr fun hmem => hspace ?_
    rw [← hx]
    exact List.mem_append_left x hmem
  refine ⟨x ++ t, by rw [← List.append_assoc, hx, ht], hspace, ⟨t, ht⟩, hm, ?_⟩
  rw [← ht, ← hx, List.append_assoc, shownKey_append, hbase]

/-- An object with a matching key without spaces is shown as it is. -/
theorem IsPattern.shownAt_self (h : IsPattern w) {o : StoredObject} {r : Str}
    (hkey : o.key = treeBase w ++ r) (hm : w.isMatch o.key = true) (hspace : ' ' ∉ o.key) :
    ShownAt w o r where
  covered := h.keyPrefix_of_isMatch hm
  isMatch := by rw [shownKey_eq_self.mpr hspace, hm]
  shown := by rw [shownKey_eq_self.mpr hspace, hkey]

/-- Nothing is shown at the base of the tree itself, unless it is stored there. -/
theorem IsPattern.shownAt_ne_nil (h : IsPattern w) {o : StoredObject} {r : Str}
    (hs : ShownAt w o r) (hbase : o.key ≠ treeBase w) : r ≠ [] := by
  rintro rfl
  obtain ⟨x, hx, -, hshown⟩ := h.shownAt_tail hs.covered hs.isMatch
  have heq := List.append_cancel_left (hshown.shown.symm.trans hs.shown)
  have hnil : x = [] := by simpa [shownKey] using heq
  rw [hnil, List.append_nil] at hx
  exact hbase hx

end Pattern

/-! ## The maps of a listing -/

/-- The object that a listing of `w` sends for a stored one. -/
def StoredObject.listed (o : StoredObject) (w : Url) : Object where
  url := some { w with relativePath := w.relativeOf (shownKey o.key), path := shownKey o.key }
  etag := trimQuotes o.etag
  modTime := some (fromSecs o.lastModified)
  typ := .file
  size := o.size
  storageClass := o.storageClass

/-- The map of a listing: each entry describes one of the objects that are kept
and shown at its path, and no such path is missing. -/
structure MapOf (w : Url) (keep : StoredObject → Prop) (objs : List StoredObject) (m : ObjectMap) :
    Prop where
  sound : ∀ (r : Str) (obj : Object), m[r]? = some obj →
    ∃ o ∈ objs, keep o ∧ ShownAt w o r ∧ obj = o.listed w
  complete : ∀ o ∈ objs, keep o → ∀ r, ShownAt w o r → r ∈ m

section Listing

variable {w : Url} {objs : List StoredObject} {s3 : S3} {b : Backend}

theorem contentObject_urlEncode {o : StoredObject} {obj : Object} :
    contentObject w (o.entry urlEncode) = some obj ↔
      w.isMatch (shownKey o.key) = true ∧ obj = o.listed w := by
  rw [contentObject_entry]
  constructor
  · rintro ⟨u, hu, rfl⟩
    obtain ⟨hm, rfl⟩ := Url.listed_eq_some.mp hu
    rw [percentDecode_urlEncode] at hm ⊢
    exact ⟨hm, rfl⟩
  · rintro ⟨hm, rfl⟩
    refine ⟨_, Url.listed_eq_some.mpr ⟨?_, rfl⟩, ?_⟩
    · rw [percentDecode_urlEncode]
      exact hm
    · rw [percentDecode_urlEncode]
      rfl

/-- The files of a complete listing. -/
theorem mem_list_iff (hw : IsPattern w) (hserve : Serves urlEncode objs s3 w) {obj : Object}
    (herr : obj.err = none) (hdir : obj.typ.isDir = false) :
    obj ∈ s3.list w ↔ ∃ o ∈ objs, w.keyPrefix <+: o.key ∧ w.isMatch (shownKey o.key) = true ∧
      obj = o.listed w := by
  rw [mem_list_of_serves hserve hw.isVersioned herr hdir]
  constructor
  · rintro ⟨o, ho, hcov, hobj⟩
    exact ⟨o, ho, hw.covers_iff.mp hcov, contentObject_urlEncode.mp hobj⟩
  · rintro ⟨o, ho, hpre, hobj⟩
    exact ⟨o, ho, hw.covers_iff.mpr hpre, contentObject_urlEncode.mpr hobj⟩

/-- The relative path of a listed object is the one it is shown at. -/
theorem relative_listed (hw : IsPattern w) {o : StoredObject} {r : Str} (hs : ShownAt w o r)
    (hbase : o.key ≠ treeBase w) :
    ∃ u, (o.listed w).url = some u ∧ u.bucket = w.bucket ∧ u.path = treeBase w ++ r ∧
      u.isRemote = true ∧ u.relative = r := by
  have hr := hw.shownAt_ne_nil hs hbase
  refine ⟨_, rfl, rfl, hs.shown, hw.isRemote, ?_⟩
  have hpre : w.keyPrefix <+: treeBase w ++ r := by
    rw [← hs.shown]
    exact hw.keyPrefix_of_isMatch hs.isMatch
  have hrel := hw.remoteKey_append hpre hr
  rw [← hs.shown] at hrel
  exact hrel

theorem keptKey_listed (hw : IsPattern w) {o : StoredObject} {r : Str} (hs : ShownAt w o r)
    (hbase : o.key ≠ treeBase w) {force : Bool} {k : Str} {v : Url} :
    keptKey noFilters force (o.listed w) = some (k, v) ↔
      skipGlacier o.storageClass force = false ∧ (o.listed w).url = some v ∧ k = r := by
  obtain ⟨u, hu, -, -, -, hrel⟩ := relative_listed hw hs hbase
  rw [keptKey_eq_some, hu]
  constructor
  · rintro ⟨-, hglacier, hv, hk, -⟩
    obtain rfl := Option.some.inj hv
    exact ⟨hglacier, rfl, hk.symm.trans hrel⟩
  · rintro ⟨hglacier, hv, rfl⟩
    obtain rfl := Option.some.inj hv
    exact ⟨rfl, hglacier, rfl, hrel, rfl⟩

/-- Every object that is listed is shown at some path. -/
theorem shownAt_of_mem_list (hw : IsPattern w) (hserve : Serves urlEncode objs s3 w) {obj : Object}
    (hmem : obj ∈ s3.list w) (herr : obj.err = none) (hdir : obj.typ.isDir = false) :
    ∃ o ∈ objs, obj = o.listed w ∧ ∃ r, ShownAt w o r := by
  obtain ⟨o, ho, hpre, hm, rfl⟩ := (mem_list_iff hw hserve herr hdir).mp hmem
  obtain ⟨x, -, -, hshown⟩ := hw.shownAt_tail hpre hm
  exact ⟨o, ho, rfl, _, hshown⟩

theorem newClient_pattern (hw : IsPattern w) (hs3 : b.newS3 w = .ok s3) :
    b.newClient w = .ok (.remote s3) := by
  rw [Backend.newClient, if_pos hw.isRemote, hs3]
  rfl

/-- A wildcard source is collected from its listing. -/
theorem collectSourceObjects_pattern (hw : IsPattern w) (hs3 : b.newS3 w = .ok s3) (args : SyncArgs)
    (filters : Filters) :
    collectSourceObjects b w args true filters =
      collectListed b.fs w filters args.checksum args.forceGlacierTransfer (s3.list w) ∅ := by
  simp [collectSourceObjects, newClient_pattern hw hs3, bind, Except.bind, Client.list]

/-- The checksum is computed for local files only. -/
theorem fillChecksum_remote {fs : LocalFs} {checksum : Bool} {u : Url} {obj : Object}
    (hrem : u.isRemote = true) : fillChecksum fs checksum u obj = obj := by
  rw [fillChecksum, hrem, Bool.not_true, Bool.and_false, if_neg (by simp)]

/-- **The source map** of a complete listing. -/
theorem collectSourceObjects_mapOf (hw : IsPattern w) (hserve : Serves urlEncode objs s3 w)
    (hs3 : b.newS3 w = .ok s3) (hbase : ∀ o ∈ objs, o.key ≠ treeBase w) {args : SyncArgs}
    {m : ObjectMap} (h : collectSourceObjects b w args true noFilters = .ok m) :
    MapOf w (fun o => skipGlacier o.storageClass args.forceGlacierTransfer = false) objs m := by
  rw [collectSourceObjects_pattern hw hs3] at h
  obtain ⟨hall, -, hkeys⟩ := collectListed_ok h
  refine ⟨?_, ?_⟩
  · intro r obj hr
    rcases collectListed_value h hr with hnone | ⟨obj', hobj', u, hkept, rfl⟩
    · simp at hnone
    · have hdir := (keptKey_eq_some.mp hkept).1
      obtain ⟨o, ho, rfl, r', hshown⟩ := shownAt_of_mem_list hw hserve hobj' (hall obj' hobj') hdir
      obtain ⟨hglacier, hu, rfl⟩ := (keptKey_listed hw hshown (hbase o ho)).mp hkept
      obtain ⟨u', hu', -, -, hrem, -⟩ := relative_listed hw hshown (hbase o ho)
      obtain rfl := Option.some.inj (hu.symm.trans hu')
      exact ⟨o, ho, hglacier, hshown, fillChecksum_remote hrem⟩
  · intro o ho hglacier r hshown
    rw [hkeys r]
    obtain ⟨u, hu, -⟩ := relative_listed hw hshown (hbase o ho)
    have hmem : o.listed w ∈ s3.list w :=
      (mem_list_iff hw hserve rfl rfl).mpr ⟨o, ho, hshown.covered, hshown.isMatch, rfl⟩
    exact .inr ⟨_, hmem, u, (keptKey_listed hw hshown (hbase o ho)).mpr ⟨hglacier, hu, rfl⟩⟩

/-- The source is collected when something is shown of it. -/
theorem exists_collectSourceObjects (hw : IsPattern w) (hserve : Serves urlEncode objs s3 w)
    (hs3 : b.newS3 w = .ok s3) {o : StoredObject} (ho : o ∈ objs) {r : Str} (hshown : ShownAt w o r)
    (args : SyncArgs) : ∃ m, collectSourceObjects b w args true noFilters = .ok m := by
  have hall : ∀ obj ∈ s3.list w, obj.err = none := by
    intro obj hobj
    rcases err_of_mem_list hserve hw.isVersioned hobj with herr | ⟨-, hnothing⟩
    · exact herr
    · have hnone := hnothing o ho (hw.covers_iff.mpr hshown.covered)
      rw [contentObject_urlEncode.mpr ⟨hshown.isMatch, rfl⟩] at hnone
      cases hnone
  rw [collectSourceObjects_pattern hw hs3]
  exact exists_collectListed b.fs w noFilters args.checksum args.forceGlacierTransfer hall ∅

/-- **The destination map** of a complete listing. -/
theorem collectDestObjects_mapOf (hw : IsPattern w) (hserve : Serves urlEncode objs s3 w)
    (hs3 : b.newS3 w = .ok s3) (hbase : ∀ o ∈ objs, o.key ≠ treeBase w) {dst : Url}
    (hlisting : Url.parse (listingPath dst) = .ok w) :
    ∃ m, collectDestObjects b dst noFilters = .ok m ∧ MapOf w (fun _ => True) objs m := by
  have herr : ∀ obj ∈ s3.list w, ∀ e, obj.err = some e → isMissing e = true := by
    intro obj hobj e he
    rcases err_of_mem_list hserve hw.isVersioned hobj with hnone | ⟨rfl, -⟩
    · rw [hnone] at he
      cases he
    · obtain rfl := Option.some.inj he
      decide
  obtain ⟨m, hm⟩ := exists_collectDestListed dst noFilters herr ∅
  refine ⟨m, (collectDestObjects_eq hlisting (newClient_pattern hw hs3)).trans hm, ?_, ?_⟩
  · intro r obj hr
    rcases collectDestListed_ok hm hr with hnone | ⟨hobj, hnone, hkey⟩
    · simp at hnone
    · obtain ⟨hdir, u, hu, hrel, -⟩ := destKey_eq_some.mp hkey
      obtain ⟨o, ho, rfl, r', hshown⟩ := shownAt_of_mem_list hw hserve hobj hnone hdir
      obtain ⟨u', hu', -, -, -, hrel'⟩ := relative_listed hw hshown (hbase o ho)
      obtain rfl := Option.some.inj (hu.symm.trans hu')
      obtain rfl : r = r' := hrel.symm.trans hrel'
      exact ⟨o, ho, trivial, hshown, rfl⟩
  · intro o ho _ r hshown
    obtain ⟨u, hu, -, -, -, hrel⟩ := relative_listed hw hshown (hbase o ho)
    have hmem : o.listed w ∈ s3.list w :=
      (mem_list_iff hw hserve rfl rfl).mpr ⟨o, ho, hshown.covered, hshown.isMatch, rfl⟩
    exact (mem_of_destKey hm).2 _ hmem rfl r (destKey_eq_some.mpr ⟨rfl, u, hu, hrel, rfl⟩)

end Listing

end Rs5cmd
