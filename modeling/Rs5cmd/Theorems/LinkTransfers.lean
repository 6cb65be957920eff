import Rs5cmd.Theorems.Crossing
import Rs5cmd.Theorems.LinkTree
import Rs5cmd.Theorems.SyncListing

/-!
# `cp --links` of a directory and of a prefix

What the two commands of a round trip transfer: the upload of a directory, and the
download of everything below a prefix.
-/

namespace Rs5cmd

open LexPath

/-! ## One source -/

theorem shouldSkip_noFilters (key : Str) : noFilters.shouldSkip key = false := rfl

/-- The pairs of a command with one source are those of its expansion. -/
theorem cpPairs_one {b : Backend} {raw dstRaw : Str} {src dst : Url}
    (hsrc : Url.new raw {} = .ok src) (hdst : Url.parse dstRaw = .ok dst) :
    cpPairs b {} false [raw, dstRaw] noFilters = expandSources b src dst true noFilters := by
  have hsrc' : (Url.new raw {}).mapError StorageError.msg = .ok src := by
    rw [hsrc]
    rfl
  have hone : expandAll b {} dst noFilters [raw] = expandSources b src dst true noFilters := by
    show ((Url.new raw {}).mapError StorageError.msg).bind _ = _
    rw [hsrc']
    simp only [bind, Except.bind, expandAll]
    cases expandSources b src dst true noFilters with
    | error e => rfl
    | ok pairs => simp [pure, Except.pure]
  rw [← hone]
  simp [cpPairs, hdst, Except.mapError, bind, Except.bind]

theorem keptSource_noFilters {obj : Object} {u : Url} :
    keptSource noFilters obj = some u ↔ obj.err = none ∧ obj.url = some u ∧ obj.typ.isDir = false := by
  unfold keptSource
  cases herr : obj.err with
  | some e => simp
  | none =>
    cases hurl : obj.url with
    | none => simp
    | some v =>
      cases hdir : obj.typ.isDir with
      | true => simp
      | false => simp [shouldSkip_noFilters]

/-! ## The upload of a directory -/

/-- What the system answers about the directory `dir` that holds the tree: what its
entries are, and which regular files a walk that follows links comes by, links to one
included and each at the path it is shown at. -/
structure LocalFs.Follows (fs : LocalFs) (dir : Str) (tree : LinkTree) : Prop where
  isDir : ∃ m, fs.metadata dir = .ok m ∧ m.kind = .dir
  ownDir : ∃ m, fs.symlinkMetadata dir = .ok m ∧ m.kind = .dir
  stat : ∀ ns node, tree.entry ns = some node →
    ∃ m, fs.symlinkMetadata (spellIn dir ns) = .ok m ∧ m.kind = node.ownKind
  found : ∀ names node, tree.node names = some node → node.kind = some .file →
    .ok ⟨spellIn dir (texts names), .file⟩ ∈ fs.walkDir dir true
  only : ∀ entry, .ok entry ∈ fs.walkDir dir true → entry.kind = .file →
    ∃ ns, tree.Walked ns ∧ entry.path = spellIn dir ns

/-- The pair of an entry. -/
def entryPair (dir : Str) (dst : Url) (ns : List Name) : Url × Url :=
  ((walkedUrl dir ns).setRelative (dirUrl dir), dst.join (spellIn [] ns))

/-- What the code learns about a path that can be asked about. -/
theorem LocalFs.statSync_of_ok {fs : LocalFs} {u : Url} {m : FileMeta}
    (hm : fs.symlinkMetadata u.absolute = .ok m) :
    ∃ obj, fs.statSync u = .ok obj ∧ (obj.typ.isDir = true ↔ m.kind = .dir) := by
  cases hstat : fs.statSync u with
  | error e =>
    rw [LocalFs.statSync] at hstat
    simp [hm] at hstat
  | ok obj =>
    refine ⟨obj, rfl, (LocalFs.statSync_cases hstat).1.trans ?_⟩
    simp [LocalFs.IsDir, hm]

/-- A walk whose files can all be asked about sends every one of them. -/
theorem LocalFs.exists_mem_walkEntries_of {fs : LocalFs} {src : Url}
    {entries : List (Except WalkError WalkEntry)}
    (hstat : ∀ entry, .ok entry ∈ entries → entry.kind = .file → ∀ u, Url.new entry.path {} = .ok u →
      ∃ obj, fs.statSync (u.setRelative src) = .ok obj)
    {entry : WalkEntry} {u : Url} (hmem : .ok entry ∈ entries) (hkind : entry.kind = .file)
    (hu : Url.new entry.path {} = .ok u) :
    ∃ obj ∈ fs.walkEntries src true entries, fs.statSync (u.setRelative src) = .ok obj := by
  induction entries with
  | nil => cases hmem
  | cons e rest ih =>
    have ih := ih fun entry h => hstat entry (List.mem_cons_of_mem _ h)
    cases e with
    | error e =>
      rcases List.mem_cons.mp hmem with heq | hmem
      · cases heq
      · obtain ⟨obj, hobj, hs⟩ := ih hmem
        exact ⟨obj, List.mem_cons_of_mem _ hobj, hs⟩
    | ok first =>
      unfold LocalFs.walkEntries
      by_cases hfile : first.kind = .file
      · rw [if_neg (by simp [hfile])]
        cases hfirst : Url.new first.path {} with
        | error e =>
          rcases List.mem_cons.mp hmem with heq | hmem
          · obtain rfl := Except.ok.inj heq
            rw [hu] at hfirst
            cases hfirst
          · obtain ⟨obj, hobj, hs⟩ := ih hmem
            exact ⟨obj, List.mem_cons_of_mem _ hobj, hs⟩
        | ok v =>
          obtain ⟨obj, hobj⟩ := hstat first List.mem_cons_self hfile v hfirst
          have hproc : fs.shouldProcessUrl first.path true = true := rfl
          simp only [hproc, Bool.not_true, Bool.false_eq_true, if_false, hobj]
          rcases List.mem_cons.mp hmem with heq | hmem
          · obtain rfl := Except.ok.inj heq
            obtain rfl := Except.ok.inj (hu.symm.trans hfirst)
            exact ⟨obj, List.mem_cons_self, hobj⟩
          · obtain ⟨obj', hobj', hs⟩ := ih hmem
            exact ⟨obj', List.mem_cons_of_mem _ hobj', hs⟩
      · rw [if_pos hfile]
        rcases List.mem_cons.mp hmem with heq | hmem
        · obtain rfl := Except.ok.inj heq
          exact absurd hkind hfile
        · exact ih hmem

section Upload

variable {b : Backend} {dir : Str} {tree : LinkTree} {dst : Url}

theorem LinkTree.Walked.ne_nil {ns : List Name} (h : tree.Walked ns) : ns ≠ [] := by
  obtain ⟨names, node, hnode, ⟨-, rfl⟩ | ⟨-, below, hbelow, rfl⟩⟩ := h
  · intro hnil
    rw [texts, List.map_eq_nil_iff] at hnil
    rw [hnil, tree.top] at hnode
    cases hnode
  · exact fun hnil => hbelow (List.append_eq_nil_iff.mp hnil).2

/-- The expansion of a directory is a walk. -/
theorem expandSources_dir (hdir : DirSpelling dir) (hfs : b.fs.Follows dir tree) (dst : Url) :
    expandSources b (dirUrl dir) dst true noFilters =
      .ok (((b.fs.walkEntries (dirUrl dir) true (b.fs.walkDir dir true)).filterMap
        (keptSource noFilters)).map fun u => (u, dst.join u.relative)) := by
  have hversions : expandsVersions (dirUrl dir) = false := rfl
  have hclient : b.newClient (dirUrl dir) = .ok (.loc b.fs) := rfl
  have hmulti : isMulti b.fs (dirUrl dir) = true := by
    obtain ⟨m, hm, hkind⟩ := hfs.isDir
    have hpath : b.fs.isDirPath (dirUrl dir).absolute = true := by
      show b.fs.isDirPath dir = true
      rw [LocalFs.isDirPath, hm]
      simp [hkind]
    rw [isMulti, hdir.isWildcard, if_neg (by simp)]
    exact hpath
  have hlist : (Client.loc b.fs).list (dirUrl dir) true =
      b.fs.walkEntries (dirUrl dir) true (b.fs.walkDir dir true) := by
    obtain ⟨m, hm, hkind⟩ := hfs.ownDir
    have habs : (dirUrl dir).absolute = dir := rfl
    have hm' : b.fs.symlinkMetadata (dirUrl dir).absolute = .ok m := hm
    obtain ⟨obj, hobj, hisDir⟩ := LocalFs.statSync_of_ok hm'
    have htyp := hisDir.mpr hkind
    show b.fs.list (dirUrl dir) true = _
    rw [LocalFs.list, hdir.isWildcard, if_neg (by simp), hobj]
    simp only [htyp, if_true, LocalFs.walk, LocalFs.shouldProcessUrl, Bool.true_or, Bool.not_true,
      Bool.false_eq_true, if_false, habs]
  unfold expandSources
  rw [hclient]
  simp only [hversions, hmulti, hlist, bind, Except.bind, pure, Except.pure, Bool.false_eq_true,
    if_false, Bool.not_true]

/-- A pair of the upload is that of a file that the walk comes by. -/
theorem mem_upload (hdir : DirSpelling dir) (hfs : b.fs.Follows dir tree)
    {pairs : List (Url × Url)} (hpairs : expandSources b (dirUrl dir) dst true noFilters = .ok pairs)
    {pr : Url × Url} (hpr : pr ∈ pairs) : ∃ ns, tree.Walked ns ∧ pr = entryPair dir dst ns := by
  rw [expandSources_dir hdir hfs dst] at hpairs
  obtain rfl := Except.ok.inj hpairs
  obtain ⟨u, hu, rfl⟩ := List.mem_map.mp hpr
  obtain ⟨obj, hobj, hkept⟩ := List.mem_filterMap.mp hu
  obtain ⟨herr, hurl, -⟩ := keptSource_noFilters.mp hkept
  obtain ⟨entry, v, hentry, hkind, hnew, -, hstat⟩ := LocalFs.mem_walkEntries hobj herr
  obtain ⟨ns, hwalked, hpath⟩ := hfs.only entry hentry hkind
  have hne := hwalked.ne_nil
  rw [hpath, hdir.new_spellIn hne] at hnew
  obtain rfl := Except.ok.inj hnew
  obtain rfl := Option.some.inj ((LocalFs.statSync_err hstat).2.symm.trans hurl)
  exact ⟨ns, hwalked, by rw [entryPair, hdir.relative hne]⟩

/-- Where every file that the walk comes by is an entry, each of these has its pair. -/
theorem entryPair_mem (hdir : DirSpelling dir) (hfs : b.fs.Follows dir tree)
    (hall : ∀ ns, tree.Walked ns → tree.entry ns ≠ none) {pairs : List (Url × Url)}
    (hpairs : expandSources b (dirUrl dir) dst true noFilters = .ok pairs) {ns : List Name}
    {node : LinkNode} (hnode : tree.entry ns = some node) (hkind : node.kind = some .file) :
    entryPair dir dst ns ∈ pairs := by
  rw [expandSources_dir hdir hfs dst] at hpairs
  obtain rfl := Except.ok.inj hpairs
  have hfound := hfs.found (ofTexts ns) node hnode hkind
  rw [texts_ofTexts] at hfound
  have hwalked : tree.Walked ns := ⟨ofTexts ns, node, hnode, .inl ⟨hkind, (texts_ofTexts ns).symm⟩⟩
  have hne := hwalked.ne_nil
  have hasked : ∀ ms node, tree.entry ms = some node → ms ≠ [] →
      ∃ obj, b.fs.statSync ((walkedUrl dir ms).setRelative (dirUrl dir)) = .ok obj ∧
        obj.typ.isDir = false := by
    intro ms node hms hne
    obtain ⟨m, hm, hown⟩ := hfs.stat ms node hms
    have hm' : b.fs.symlinkMetadata ((walkedUrl dir ms).setRelative (dirUrl dir)).absolute = .ok m := hm
    obtain ⟨obj, hobj, hisDir⟩ := LocalFs.statSync_of_ok hm'
    refine ⟨obj, hobj, ?_⟩
    rw [← Bool.not_eq_true, hisDir, hown]
    cases node <;> simp [LinkNode.ownKind]
  obtain ⟨obj, hobj, hstat⟩ := LocalFs.exists_mem_walkEntries_of (by
    intro entry hentry hkind u hu
    obtain ⟨ms, hms, hpath⟩ := hfs.only entry hentry hkind
    rw [hpath, hdir.new_spellIn hms.ne_nil] at hu
    obtain rfl := Except.ok.inj hu
    obtain ⟨node, hnode⟩ := Option.ne_none_iff_exists'.mp (hall ms hms)
    obtain ⟨obj, hobj, -⟩ := hasked ms node hnode hms.ne_nil
    exact ⟨obj, hobj⟩) hfound rfl (hdir.new_spellIn hne)
  obtain ⟨obj', hobj', htyp⟩ := hasked ns node hnode hne
  obtain rfl := Except.ok.inj (hstat.symm.trans hobj')
  obtain ⟨herr, hurl⟩ := LocalFs.statSync_err hstat
  refine List.mem_map.mpr ⟨(walkedUrl dir ns).setRelative (dirUrl dir), ?_, ?_⟩
  · exact List.mem_filterMap.mpr ⟨obj, hobj, keptSource_noFilters.mpr ⟨herr, hurl, htyp⟩⟩
  · rw [entryPair, hdir.relative hne]

end Upload

/-! ## The download of a prefix -/

/-- A prefix under which entries are stored: it has no wildcard and is that of a directory. -/
structure KeyPrefix (p : Str) : Prop where
  literal : hasGlobCharacter p = false
  whole : p = [] ∨ Str.endsWith '/' p = true

/-- The URL of everything under a prefix. -/
def belowUrl (bucket p : Str) : Url := Url.parsed .remote "s3".toList bucket (p ++ ['*']) {}

section Download

variable {bucket p : Str} {objs : List StoredObject} {s3 : S3} {b : Backend} {dst : Url}

theorem isPattern_belowUrl (hp : KeyPrefix p) (bucket : Str) : IsPattern (belowUrl bucket p) where
  parsed := rfl
  glob := by
    show Url.globPart (p ++ ['*']) ≠ []
    rw [Url.globPart_append hp.literal]
    decide

theorem keyPrefix_belowUrl (hp : KeyPrefix p) (bucket : Str) : (belowUrl bucket p).keyPrefix = p := by
  show Url.literalPart (p ++ ['*']) = p
  have hstar : Url.literalPart ['*'] = [] := by decide
  rw [Url.literalPart_append hp.literal, hstar, List.append_nil]

theorem treeBase_belowUrl (hp : KeyPrefix p) (bucket : Str) : treeBase (belowUrl bucket p) = p := by
  rw [treeBase, keyPrefix_belowUrl hp]
  have h : (p ++ []).rdropWhile (· != '/') = p := rdropWhile_append_name (by simp) hp.whole
  rwa [List.append_nil] at h

theorem isMatch_belowUrl (hp : KeyPrefix p) (bucket key : Str) :
    (belowUrl bucket p).isMatch key = true ↔ p <+: key := by
  rw [Url.isMatch_listing hp.literal rfl]
  constructor
  · rintro ⟨t, rfl⟩
    exact List.prefix_append p t
  · rintro ⟨t, rfl⟩
    exact ⟨t, rfl⟩

/-- A pair of the download of an entry. -/
structure IsDownload (bucket p : Str) (dst : Url) (pr : Url × Url) (ns : List Name) : Prop where
  remote : pr.1.isRemote = true
  bucket : pr.1.bucket = bucket
  path : pr.1.path = spellIn p ns
  versionId : pr.1.versionId = []
  dst : pr.2 = dst.join (spellIn [] ns)

/-- The expansion of a wildcard is its listing. -/
theorem expandSources_below (hp : KeyPrefix p) (hs3 : b.newS3 (belowUrl bucket p) = .ok s3) (dst : Url) :
    expandSources b (belowUrl bucket p) dst true noFilters =
      .ok (((s3.list (belowUrl bucket p)).filterMap (keptSource noFilters)).map fun u =>
        (u, dst.join u.relative)) := by
  have hwild : (belowUrl bucket p).isWildcard = true := by
    show (!false && hasGlobCharacter (p ++ ['*'])) = true
    simp [hasGlobCharacter, isGlobChar]
  have hversions : expandsVersions (belowUrl bucket p) = false := by
    rw [expandsVersions, hwild, Bool.not_true, Bool.and_false]
  have hmulti : isMulti b.fs (belowUrl bucket p) = true := by rw [isMulti, if_pos hwild]
  unfold expandSources
  rw [newClient_pattern (isPattern_belowUrl hp bucket) hs3]
  simp only [hversions, hmulti, bind, Except.bind, pure, Except.pure, Bool.false_eq_true,
    if_false, Bool.not_true]
  rfl

/-- What is shown of an entry. -/
theorem isDownload_of_shown (hp : KeyPrefix p) {o : StoredObject} {ns : List Name}
    (hshown : ShownAt (belowUrl bucket p) o (spellIn [] ns)) (hbase : o.key ≠ p) {u : Url}
    (hu : (o.listed (belowUrl bucket p)).url = some u) (dst : Url) :
    IsDownload bucket p dst (u, dst.join u.relative) ns := by
  have hw := isPattern_belowUrl hp bucket
  have hbase' : o.key ≠ treeBase (belowUrl bucket p) := by
    rw [treeBase_belowUrl hp]
    exact hbase
  obtain ⟨v, hv, hb, hpath, hrem, hrel⟩ := relative_listed hw hshown hbase'
  have huv : u = { belowUrl bucket p with
      relativePath := (belowUrl bucket p).relativeOf (shownKey o.key), path := shownKey o.key } :=
    (Option.some.inj hu).symm
  obtain rfl := Option.some.inj (hu.symm.trans hv)
  refine ⟨hrem, hb, ?_, by rw [huv]; rfl, by rw [hrel]⟩
  rw [hpath, treeBase_belowUrl hp]
  rfl

/-- A pair of the download whose object is there is that of an entry, and has no space in
its key. -/
theorem mem_download (hp : KeyPrefix p) (hs3 : b.newS3 (belowUrl bucket p) = .ok s3)
    (hserve : Serves urlEncode objs s3 (belowUrl bucket p))
    (hkeys : ∀ o ∈ objs, p <+: o.key → ∃ ns, ns ≠ [] ∧ o.key = spellIn p ns)
    {pairs : List (Url × Url)}
    (hpairs : expandSources b (belowUrl bucket p) dst true noFilters = .ok pairs) {pr : Url × Url}
    (hpr : pr ∈ pairs) :
    pr.1.isRemote = true ∧ pr.1.bucket = bucket ∧ pr.1.versionId = [] ∧
      ((∃ o ∈ objs, o.key = pr.1.path) →
        ∃ ns, ns ≠ [] ∧ IsDownload bucket p dst pr ns ∧ ' ' ∉ spellIn p ns) := by
  have hw := isPattern_belowUrl hp bucket
  rw [expandSources_below hp hs3 dst] at hpairs
  obtain rfl := Except.ok.inj hpairs
  obtain ⟨u, hu, rfl⟩ := List.mem_map.mp hpr
  obtain ⟨obj, hobj, hkept⟩ := List.mem_filterMap.mp hu
  obtain ⟨herr, hurl, hdir⟩ := keptSource_noFilters.mp hkept
  obtain ⟨o, ho, hcov, hm, rfl⟩ := (mem_list_iff hw hserve herr hdir).mp hobj
  have huv : u = { belowUrl bucket p with
      relativePath := (belowUrl bucket p).relativeOf (shownKey o.key), path := shownKey o.key } :=
    (Option.some.inj hurl).symm
  refine ⟨by rw [huv]; rfl, by rw [huv]; rfl, by rw [huv]; rfl, ?_⟩
  rintro ⟨o', ho', hkey⟩
  have hpath : u.path = shownKey o.key := by rw [huv]
  have hpre : p <+: o'.key := by
    rw [hkey, hpath, ← isMatch_belowUrl hp bucket]
    exact hm
  obtain ⟨ns, hns, hspell⟩ := hkeys o' ho' hpre
  have hshownKey : shownKey o.key = spellIn p ns := by rw [← hspell, hkey, hpath]
  have hbase : o.key ≠ p := by
    intro heq
    obtain ⟨ms, hms, hspell'⟩ := hkeys o ho (by rw [heq])
    exact spellIn_ne hms (hspell'.symm.trans heq)
  refine ⟨ns, hns, isDownload_of_shown hp ⟨hcov, hm, ?_⟩ hbase hurl dst, ?_⟩
  · rw [treeBase_belowUrl hp, hshownKey]
    rfl
  · rw [← hshownKey]
    exact space_not_mem_shownKey o.key

/-- An entry without a space in its key has its pair. -/
theorem exists_isDownload (hp : KeyPrefix p) (hs3 : b.newS3 (belowUrl bucket p) = .ok s3)
    (hserve : Serves urlEncode objs s3 (belowUrl bucket p)) {pairs : List (Url × Url)}
    (hpairs : expandSources b (belowUrl bucket p) dst true noFilters = .ok pairs) {o : StoredObject}
    (ho : o ∈ objs) {ns : List Name} (hns : ns ≠ []) (hkey : o.key = spellIn p ns)
    (hspace : ' ' ∉ spellIn p ns) : ∃ pr ∈ pairs, IsDownload bucket p dst pr ns := by
  have hw := isPattern_belowUrl hp bucket
  rw [expandSources_below hp hs3 dst] at hpairs
  obtain rfl := Except.ok.inj hpairs
  have hpre : p <+: o.key := by
    rw [hkey]
    exact prefix_spellIn p ns
  have hshown : ShownAt (belowUrl bucket p) o (spellIn [] ns) := by
    refine hw.shownAt_self ?_ ((isMatch_belowUrl hp bucket _).mpr hpre) (by rw [hkey]; exact hspace)
    rw [treeBase_belowUrl hp, hkey]
    rfl
  have hbase : o.key ≠ p := by
    rw [hkey]
    exact spellIn_ne hns
  have hmem : o.listed (belowUrl bucket p) ∈ s3.list (belowUrl bucket p) :=
    (mem_list_iff hw hserve rfl rfl).mpr ⟨o, ho, hshown.covered, hshown.isMatch, rfl⟩
  refine ⟨_, List.mem_map.mpr ⟨_, List.mem_filterMap.mpr ⟨_, hmem, ?_⟩, rfl⟩,
    isDownload_of_shown hp hshown hbase rfl dst⟩
  exact keptSource_noFilters.mpr ⟨rfl, rfl, rfl⟩

end Download

end Rs5cmd
