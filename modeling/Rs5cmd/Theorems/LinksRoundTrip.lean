import Rs5cmd.Theorems.LinkTransfers

/-!
# There and back with `--links`

A directory tree is uploaded with `cp --links` and downloaded again. It comes back as it
was unless its names or its links are of a kind that the encoding by a suffix, the walk or
the listing loses.
-/

namespace Rs5cmd

open LexPath

/-! ## The two commands -/

/-- The job of `cp --links src dst`. -/
structure LinksJob (b : Backend) (cwd src dst : Str) (job : Job) : Prop where
  planned : cpPairs b {} false [src, dst] noFilters = .ok job.pairs
  links : job.links = true
  keeps : job.isMove = false
  real : job.dryRun = false
  store : job.sameStore = true
  cwd : job.cwd = cwd
  side : ∀ u, Url.parse dst = .ok u → job.dstRemote = u.isRemote

/-- `cp --links src dst` takes the world `w` to `w'`, in some order of the steps of its
transfers and with no failure that could be avoided. -/
def CpLinks (b : Backend) (cwd src dst : Str) (w w' : World) : Prop :=
  ∃ job, LinksJob b cwd src dst job ∧ ∃ sched p,
    Machine.run (Pool.step job.tasks) { shared := w } sched = some p ∧ Pool.Complete job.tasks p ∧
      (∀ ev ∈ sched, job.Undisturbed w ev) ∧ p.shared = w'

/-- The spelling of a key, or of a prefix. -/
def remotePath (bucket key : Str) : Str := "s3://".toList ++ (bucket ++ '/' :: key)

/-- The listing of `u` is answered from the objects of the world. -/
def Backend.HoldsWorld (b : Backend) (w : World) (u : Url) : Prop :=
  ∃ s3 objs, b.newS3 u = .ok s3 ∧ Serves urlEncode objs s3 u ∧
    ∀ key, (∃ o ∈ objs, StoredObject.key o = key) ↔ w (.object false u.bucket key []) ≠ none

/-- A tree in the directory `dir`, a prefix under which there is nothing and a directory
`into` in which there is nothing. -/
structure LinkTrip (b : Backend) (cwd dir bucket p into : Str) (tree : LinkTree) (w₀ : World) :
    Prop where
  spelled : DirSpelling dir
  bucketName : Url.BucketName bucket
  keyPrefix : KeyPrefix p
  follows : b.fs.Follows dir tree
  held : ∀ ns node, tree.entry ns = some node →
    w₀ (.file ((locFrom (locOf cwd) dir).descend ns)) = some node.content
  fresh : ∀ key, p <+: key → w₀ (.object false bucket key []) = none
  named : into ≠ []
  noScheme : Str.splitOnce "://".toList into = none
  vacant : ∀ ns, ns ≠ [] → w₀ (.file ((locFrom (locOf cwd) into).descend ns)) = none

/-- The tree is found below `l`, and nothing else: all names are text, and every entry is
there with its bytes or its target. -/
structure Reproduced (tree : LinkTree) (l : Loc Name) (w : World) : Prop where
  text : ∀ names, tree.node names ≠ none → ∀ n ∈ names, n.IsText
  same : ∀ ns, ns ≠ [] → w (.file (l.descend ns)) = (tree.entry ns).map LinkNode.content

/-- What survives a round trip: names in valid UTF-8, regular files without the suffix,
links to regular files, and no space in any key. -/
structure LinkTree.Survives (tree : LinkTree) (p : Str) : Prop where
  text : ∀ names, tree.node names ≠ none → ∀ n ∈ names, n.IsText
  plain : ∀ names data, tree.node names = some (.file data) → ∀ n, names.getLast? = some n →
    ¬ linkSuffix <:+ n.text.val
  led : ∀ names t k, tree.node names = some (.link t k) → k = some .file
  spaceless : ∀ names, tree.node names ≠ none → ' ' ∉ spellIn p (texts names)

/-! ## Entries -/

/-- The key that an entry is stored under. -/
def LinkNode.keyIn (p : Str) (ns : List Name) : LinkNode → Str
  | .file _ => spellIn p ns
  | .link _ _ => spellIn p ns ++ linkSuffix

/-- What is stored of an entry. -/
def LinkNode.payload : LinkNode → List UInt8
  | .file data => data
  | .link t _ => Utf8.encode t

section Trees

variable {tree : LinkTree} {p : Str}

/-- Nothing lies below an entry. -/
theorem LinkTree.not_below (htext : ∀ names, tree.node names ≠ none → ∀ n ∈ names, n.IsText)
    {v w : List OsName} (hv : tree.node v ≠ none) (hw : tree.node w ≠ none) {below : List Name}
    (hne : below ≠ []) : texts w ≠ texts v ++ below := by
  intro heq
  have hpre : v <+: w := by
    rw [← ofTexts_texts (htext v hv), ← ofTexts_texts (htext w hw), heq]
    exact ⟨ofTexts below, by simp [ofTexts]⟩
  rw [tree.leaf v w hv hw hpre] at heq
  exact hne (List.append_right_eq_self.mp heq.symm)

theorem LinkTree.entry_texts (htext : ∀ names, tree.node names ≠ none → ∀ n ∈ names, n.IsText)
    {names : List OsName} {node : LinkNode} (h : tree.node names = some node) :
    tree.entry (texts names) = some node := by
  rw [LinkTree.entry, ofTexts_texts (htext names (by simp [h])), h]

theorem LinkTree.entry_ne_nil {ns : List Name} {node : LinkNode} (h : tree.entry ns = some node) :
    ns ≠ [] := by
  rintro rfl
  rw [LinkTree.entry, show ofTexts [] = [] from rfl, tree.top] at h
  cases h

theorem LinkTree.Survives.kind (h : tree.Survives p) {ns : List Name} {node : LinkNode}
    (hnode : tree.entry ns = some node) : node.kind = some .file := by
  cases node with
  | file data => rfl
  | link t k => exact h.led _ _ _ hnode

/-- The walk comes by the entries only. -/
theorem LinkTree.Survives.of_walked (h : tree.Survives p) {ns : List Name} (hw : tree.Walked ns) :
    ∃ node, tree.entry ns = some node := by
  obtain ⟨names, node, hnode, ⟨-, rfl⟩ | ⟨hkind, -⟩⟩ := hw
  · exact ⟨node, LinkTree.entry_texts h.text hnode⟩
  · have hfile := h.kind (LinkTree.entry_texts h.text hnode)
    rw [hkind] at hfile
    cases hfile

theorem LinkTree.Survives.not_suffix (h : tree.Survives p) {ns : List Name} {n : Name}
    {data : List UInt8} (hnode : tree.entry (ns ++ [n]) = some (.file data)) :
    ¬ linkSuffix <:+ n.val :=
  h.plain _ data hnode (OsName.ofText n) (by simp [ofTexts])

end Trees

/-! ## Jobs -/

section Jobs

variable {b : Backend} {cwd src dst : Str} {job : Job} {u : Url}

theorem LinksJob.crosses (h : LinksJob b cwd src dst job)
    (hsides : ∀ pr ∈ job.pairs, pr.1.isRemote = !job.dstRemote) : job.Crosses where
  sources := hsides
  keeps := h.keeps
  real := h.real

theorem LinksJob.fileLoc (h : LinksJob b cwd src dst job) (path : Str) :
    job.fileLoc path = locFrom (locOf cwd) path := by
  rw [Job.fileLoc, h.cwd]

/-- Where nothing was at the destinations of the downloads, the command gets to its end. -/
theorem exists_cpLinks (hparse : Url.parse dst = .ok u) {pairs : List (Url × Url)}
    (hplan : cpPairs b {} false [src, dst] noFilters = .ok pairs) {w : World}
    (hpairs : ∀ pr ∈ pairs, pr.1.isRemote = !u.isRemote ∧ pr.2.isRemote = u.isRemote)
    (hvacant : ∀ job, LinksJob b cwd src dst job → ∀ pr ∈ job.pairs,
      job.original w pr ≠ none → job.transferOf w pr = .download → w (job.target w pr) = none) :
    ∃ w', CpLinks b cwd src dst w w' := by
  let job : Job :=
    { pairs := pairs, dstRemote := u.isRemote, pairs_dst := fun pr hpr => (hpairs pr hpr).2,
      links := true, cwd := cwd }
  have hjob : LinksJob b cwd src dst job := by
    refine ⟨hplan, rfl, rfl, rfl, rfl, rfl, fun v hv => ?_⟩
    rw [← Except.ok.inj (hparse.symm.trans hv)]
  have hcross : job.Crosses := hjob.crosses fun pr hpr => (hpairs pr hpr).1
  obtain ⟨sched, q, hrun, hc, hsched⟩ := Job.exists_undisturbed_run hcross (hvacant job hjob)
  exact ⟨q.shared, job, hjob, sched, q, hrun, hc, hsched, rfl⟩

end Jobs

/-! ## The upload -/

section Upload

variable {b : Backend} {cwd dir bucket p into : Str} {tree : LinkTree} {w₀ w₁ : World} {job : Job}

theorem dst_parse (h : LinkTrip b cwd dir bucket p into tree w₀) :
    Url.parse (remotePath bucket p) = .ok (Url.parsed .remote "s3".toList bucket p {}) :=
  Url.parse_remote h.bucketName p

theorem upload_planned (h : LinkTrip b cwd dir bucket p into tree w₀) :
    cpPairs b {} false [dir, remotePath bucket p] noFilters =
      expandSources b (dirUrl dir) (Url.parsed .remote "s3".toList bucket p {}) true noFilters :=
  cpPairs_one h.spelled.new_dir (dst_parse h)

/-- The pair is the upload of what is found at `ns`. -/
structure IsUpload (cwd dir bucket p : Str) (w : World) (job : Job) (pr : Url × Url)
    (ns : List Name) : Prop where
  source : job.srcCell pr.1 = .file ((locFrom (locOf cwd) dir).descend ns)
  transfer : job.transferOf w pr =
    if w.isSymlink (.file ((locFrom (locOf cwd) dir).descend ns)) then .uploadLink else .upload
  target : job.target w pr = .object false bucket
    (if w.isSymlink (.file ((locFrom (locOf cwd) dir).descend ns)) then spellIn p ns ++ linkSuffix
      else spellIn p ns) []

theorem isUpload_entryPair (h : LinkTrip b cwd dir bucket p into tree w₀)
    (hjob : LinksJob b cwd dir (remotePath bucket p) job) (w : World) (ns : List Name) :
    IsUpload cwd dir bucket p w job
      (entryPair dir (Url.parsed .remote "s3".toList bucket p {}) ns) ns := by
  have hcell : job.srcCell (entryPair dir (Url.parsed .remote "s3".toList bucket p {}) ns).1 =
      .file ((locFrom (locOf cwd) dir).descend ns) := by
    rw [← locFrom_spellIn h.spelled.slash, ← hjob.fileLoc]
    rfl
  have ht : job.transferOf w (entryPair dir (Url.parsed .remote "s3".toList bucket p {}) ns) =
      (if w.isSymlink (.file ((locFrom (locOf cwd) dir).descend ns)) then .uploadLink
        else .upload) := by
    rw [← hcell]
    unfold Job.transferOf
    rw [hjob.links]
    rfl
  refine ⟨hcell, ht, ?_⟩
  rw [Job.target, ht]
  split
  · rw [Job.dstCell, hjob.store]
    rfl
  · rw [Job.dstCell, hjob.store]
    rfl

/-- The job of the upload: what its pairs are. -/
structure UploadJob (cwd dir bucket p : Str) (tree : LinkTree) (w : World) (job : Job) : Prop where
  crosses : job.Crosses
  dstRemote : job.dstRemote = true
  pairs : ∀ pr ∈ job.pairs, ∃ ns, tree.Walked ns ∧ IsUpload cwd dir bucket p w job pr ns
  full : tree.Survives p → ∀ ns node, tree.entry ns = some node →
    ∃ pr ∈ job.pairs, IsUpload cwd dir bucket p w job pr ns

theorem LinksJob.upload (h : LinkTrip b cwd dir bucket p into tree w₀)
    (hjob : LinksJob b cwd dir (remotePath bucket p) job) (w : World) :
    UploadJob cwd dir bucket p tree w job := by
  have hplan := hjob.planned
  rw [upload_planned h] at hplan
  have hside : job.dstRemote = true := hjob.side _ (dst_parse h)
  have hmem : ∀ pr ∈ job.pairs, ∃ ns, tree.Walked ns ∧
      pr = entryPair dir (Url.parsed .remote "s3".toList bucket p {}) ns :=
    fun pr hpr => mem_upload h.spelled h.follows hplan hpr
  refine ⟨hjob.crosses ?_, hside, ?_, ?_⟩
  · intro pr hpr
    obtain ⟨ns, -, rfl⟩ := hmem pr hpr
    rw [hside]
    rfl
  · intro pr hpr
    obtain ⟨ns, hwalked, rfl⟩ := hmem pr hpr
    exact ⟨ns, hwalked, isUpload_entryPair h hjob w ns⟩
  · intro hsurvives ns node hnode
    have hall : ∀ ms, tree.Walked ms → tree.entry ms ≠ none := by
      intro ms hms
      obtain ⟨node, hnode⟩ := hsurvives.of_walked hms
      simp [hnode]
    exact ⟨_, entryPair_mem h.spelled h.follows hall hplan hnode (hsurvives.kind hnode),
      isUpload_entryPair h hjob w ns⟩

/-- What is found at an entry. -/
theorem LinkTrip.isSymlink (h : LinkTrip b cwd dir bucket p into tree w₀) {ns : List Name}
    {node : LinkNode} (hnode : tree.entry ns = some node) :
    w₀.isSymlink (.file ((locFrom (locOf cwd) dir).descend ns)) = true ↔ ∃ t k, node = .link t k := by
  rw [World.isSymlink, h.held ns node hnode]
  cases node <;> simp [LinkNode.content]

/-- The upload of an entry, to the key of its own. -/
theorem IsUpload.entry {pr : Url × Url} {ns : List Name} (hpr : IsUpload cwd dir bucket p w₀ job pr ns)
    (h : LinkTrip b cwd dir bucket p into tree w₀) {node : LinkNode}
    (hnode : tree.entry ns = some node) :
    job.original w₀ pr = some node.payload ∧
      job.target w₀ pr = .object false bucket (node.keyIn p ns) [] ∧
      ∀ data, Job.stored (job.transferOf w₀ pr) data = .bytes data := by
  have hheld := h.held ns node hnode
  rw [Job.original, hpr.transfer, hpr.source, hpr.target]
  cases node with
  | file data =>
    have hno : w₀.isSymlink (.file ((locFrom (locOf cwd) dir).descend ns)) = false := by
      rw [World.isSymlink, hheld]
      rfl
    have hself : w₀.resolve ((locFrom (locOf cwd) dir).descend ns) =
        some ((locFrom (locOf cwd) dir).descend ns) :=
      Follow.follow_of_none (World.next_eq_none_of_bytes hheld)
    rw [hno, if_neg (by simp), if_neg (by simp)]
    refine ⟨?_, rfl, fun _ => rfl⟩
    show w₀.read (.file ((locFrom (locOf cwd) dir).descend ns)) = some data
    rw [World.read, hself, Option.bind_some, World.bytesAt, hheld]
    rfl
  | link t k =>
    have hyes : w₀.isSymlink (.file ((locFrom (locOf cwd) dir).descend ns)) = true := by
      rw [World.isSymlink, hheld]
      rfl
    rw [hyes, if_pos rfl, if_pos rfl]
    refine ⟨?_, rfl, fun _ => rfl⟩
    show Job.content w₀ .uploadLink _ = _
    simp only [Job.content, hheld, LinkNode.content, LinkNode.payload]

/-- The keys of two entries that survive differ. -/
theorem LinkTree.Survives.keyIn_inj (h : tree.Survives p) {ns ms : List Name} {node node' : LinkNode}
    (hns : tree.entry ns = some node) (hms : tree.entry ms = some node')
    (heq : node.keyIn p ns = node'.keyIn p ms) : ns = ms := by
  have hmixed : ∀ {vs ws data t k}, tree.entry vs = some (.file data) →
      tree.entry ws = some (.link t k) → spellIn p vs ≠ spellIn p ws ++ linkSuffix := by
    intro vs ws data t k hvs hws hkey
    obtain ⟨init, n, rfl⟩ := exists_concat (LinkTree.entry_ne_nil hws)
    rw [spellIn_suffixed] at hkey
    obtain rfl := spellIn_inj hkey
    exact h.not_suffix hvs ⟨n.val, rfl⟩
  cases node with
  | file data =>
    cases node' with
    | file data' => exact spellIn_inj heq
    | link t k => exact absurd heq (hmixed hns hms)
  | link t k =>
    cases node' with
    | file data' => exact absurd heq.symm (hmixed hms hns)
    | link t' k' => exact spellIn_inj (List.append_cancel_right heq)

/-- What the upload leaves: the files as they were, keys of what the walk came by, and
what is stored of each entry that survives. -/
structure Uploaded (cwd dir bucket p : Str) (tree : LinkTree) (w₀ w₁ : World) : Prop where
  files : ∀ l, w₁ (.file l) = w₀ (.file l)
  keys : ∀ key, p <+: key → w₁ (.object false bucket key []) ≠ none → ∃ ns, tree.Walked ns ∧
    key = if w₀.isSymlink (.file ((locFrom (locOf cwd) dir).descend ns)) then
      spellIn p ns ++ linkSuffix else spellIn p ns
  stored : tree.Survives p → ∀ ns node, tree.entry ns = some node →
    w₁ (.object false bucket (node.keyIn p ns) []) = some (.bytes node.payload)

theorem uploaded (h : LinkTrip b cwd dir bucket p into tree w₀)
    (hrun : CpLinks b cwd dir (remotePath bucket p) w₀ w₁) :
    Uploaded cwd dir bucket p tree w₀ w₁ := by
  obtain ⟨job, hjob, sched, q, hq, hc, hsched, rfl⟩ := hrun
  have hup := hjob.upload h w₀
  have hcarried := Job.run_carried hup.crosses hsched hq
  refine ⟨?_, ?_, ?_⟩
  · intro l
    exact hcarried.sources _ (by rw [hup.dstRemote]; simp [Cell.isObject])
  · intro key hkey hthere
    rcases hcarried.origins (.object false bucket key []) with hsame | ⟨pr, hpr, b', hb', hdel | hpour⟩
    · exact absurd (hsame.trans (h.fresh key hkey)) hthere
    · obtain ⟨ns, hwalked, hisUp⟩ := hup.pairs pr hpr
      have htarget := hisUp.target.symm.trans hdel.target
      exact ⟨ns, hwalked, (Cell.object.inj htarget).2.2.1.symm⟩
    · obtain ⟨l, d, hl, -⟩ := hpour.bytes
      cases hl
  · intro hsurvives
    have hentry : ∀ pr ∈ job.pairs, ∃ ns node, tree.entry ns = some node ∧
        IsUpload cwd dir bucket p w₀ job pr ns := by
      intro pr hpr
      obtain ⟨ns, hwalked, hisUp⟩ := hup.pairs pr hpr
      obtain ⟨node, hnode⟩ := hsurvives.of_walked hwalked
      exact ⟨ns, node, hnode, hisUp⟩
    have hup' : ∀ pr ∈ job.pairs, job.transferOf w₀ pr = .upload ∨ job.transferOf w₀ pr = .uploadLink := by
      intro pr hpr
      rcases hup.crosses.transferOf_cases hpr w₀ with ⟨-, ht⟩ | ⟨hside, -⟩
      · exact ht
      · rw [hup.dstRemote] at hside
        cases hside
    have hapart : job.Apart w₀ := by
      refine ⟨?_, ?_, ?_⟩
      · intro pr hpr pr' hpr' _ _ heq
        obtain ⟨ns, node, hnode, hisUp⟩ := hentry pr hpr
        obtain ⟨ms, node', hnode', hisUp'⟩ := hentry pr' hpr'
        obtain ⟨horig, htarget, -⟩ := hisUp.entry h hnode
        obtain ⟨horig', htarget', -⟩ := hisUp'.entry h hnode'
        have hkey := (Cell.object.inj (htarget.symm.trans (heq.trans htarget'))).2.2.1
        obtain rfl := hsurvives.keyIn_inj hnode hnode' hkey
        obtain rfl := Option.some.inj (hnode.symm.trans hnode')
        exact ⟨hisUp.transfer.trans hisUp'.transfer.symm, horig.trans horig'.symm⟩
      · intro pr hpr _ ht
        rcases hup' pr hpr with ht' | ht'
        · rw [ht] at ht'
          cases ht'
        · rw [ht] at ht'
          cases ht'
      · intro pr hpr _ ht
        rcases hup' pr hpr with ht' | ht'
        · rw [ht] at ht'
          cases ht'
        · rw [ht] at ht'
          cases ht'
    obtain ⟨hplaced, -⟩ := Job.run_placed hup.crosses hapart hsched hq hc
    intro ns node hnode
    obtain ⟨pr, hpr, hisUp⟩ := hup.full hsurvives ns node hnode
    obtain ⟨horig, htarget, hstored⟩ := hisUp.entry h hnode
    obtain ⟨data, hdata, hat⟩ := hplaced pr hpr (by simp [horig])
    obtain rfl := Option.some.inj (horig.symm.trans hdata)
    rw [← htarget, hat, hstored]

/-- Some upload gets to its end. -/
theorem exists_upload_run (h : LinkTrip b cwd dir bucket p into tree w₀) :
    ∃ w₁, CpLinks b cwd dir (remotePath bucket p) w₀ w₁ := by
  have hpairs := expandSources_dir h.spelled h.follows (Url.parsed .remote "s3".toList bucket p {})
  refine exists_cpLinks (dst_parse h) ((upload_planned h).trans hpairs) ?_ ?_
  · intro pr hpr
    obtain ⟨ns, -, rfl⟩ := mem_upload h.spelled h.follows hpairs hpr
    exact ⟨rfl, rfl⟩
  · intro job hjob pr hpr _ ht
    have hup := hjob.upload h w₀
    obtain ⟨ns, -, hisUp⟩ := hup.pairs pr hpr
    have hboth := hisUp.transfer.symm.trans ht
    split at hboth
    · cases hboth
    · cases hboth

end Upload

/-! ## The download -/

section Download

variable {b b' : Backend} {cwd dir bucket p into : Str} {tree : LinkTree} {w₀ w₁ w₂ : World}
  {job : Job}

theorem into_parse (h : LinkTrip b cwd dir bucket p into tree w₀) :
    Url.parse into = .ok (dirUrl into) := by
  rw [Url.parse, Url.new, h.noScheme]
  exact Url.setPrefixAndFilter_blank _ _ _ _ rfl

theorem download_planned (h : LinkTrip b cwd dir bucket p into tree w₀) (b' : Backend) :
    cpPairs b' {} false [remotePath bucket (p ++ ['*']), into] noFilters =
      expandSources b' (belowUrl bucket p) (dirUrl into) true noFilters :=
  cpPairs_one (Url.new_remote h.bucketName (p ++ ['*']) rfl) (into_parse h)

/-- The objects under the prefix are those of paths below it. -/
theorem Uploaded.exists_names (hup : Uploaded cwd dir bucket p tree w₀ w₁) {key : Str}
    (hkey : p <+: key) (hthere : w₁ (.object false bucket key []) ≠ none) :
    ∃ ns, ns ≠ [] ∧ key = spellIn p ns := by
  obtain ⟨ns, hwalked, hshape⟩ := hup.keys key hkey hthere
  split at hshape
  · obtain ⟨init, n, rfl⟩ := exists_concat hwalked.ne_nil
    exact ⟨init ++ [n.suffixed], by simp, hshape.trans (spellIn_suffixed p init n)⟩
  · exact ⟨ns, hwalked.ne_nil, hshape⟩

/-- The pair is the download of the key of `ns`. -/
structure Fetches (cwd bucket p into : Str) (w : World) (job : Job) (pr : Url × Url)
    (ns : List Name) : Prop where
  source : job.srcCell pr.1 = .object false bucket (spellIn p ns) []
  transfer : job.transferOf w pr =
    if linkSuffix <:+ spellIn p ns then .downloadLink else .download
  dst : job.fileLoc pr.2.path = (locFrom (locOf cwd) into).descend ns
  /-- The link is made beside the file, under the rest of the last name. -/
  link : ∀ init (n : Name) m, ns = init ++ [n] → n.val = m ++ linkSuffix →
    Job.endsInName (Job.linkPath pr.2) = decide (IsName m) ∧
      ∀ hm : IsName m, job.fileLoc (Job.linkPath pr.2) =
        (locFrom (locOf cwd) into).descend (init ++ [⟨m, hm⟩])

theorem fetches_of_isDownload (h : LinkTrip b cwd dir bucket p into tree w₀)
    (hjob : LinksJob b' cwd (remotePath bucket (p ++ ['*'])) into job) (w : World)
    {pr : Url × Url} {ns : List Name} (hpr : IsDownload bucket p (dirUrl into) pr ns) :
    Fetches cwd bucket p into w job pr ns := by
  have hpath : pr.2.path = pathJoin into (spellIn [] ns) := by
    rw [hpr.dst]
    rfl
  have hdst : pr.2.isRemote = false := by
    rw [hpr.dst]
    rfl
  refine ⟨?_, ?_, ?_, ?_⟩
  · rw [Job.srcCell, if_pos hpr.remote, hpr.bucket, hpr.path, hpr.versionId]
  · unfold Job.transferOf
    rw [hjob.links, hpr.remote, hdst, hpr.path]
    by_cases hsuf : linkSuffix <:+ spellIn p ns
    · simp [Str.endsWithStr, hsuf]
    · simp [Str.endsWithStr, hsuf]
  · rw [hjob.fileLoc, hpath, locFrom_pathJoin _ h.named]
    have hsegs : segsOf (spellIn [] ns) = ns.map .name := segsOf_join_names ns
    rw [hsegs, Loc.walk_names]
  · rintro init n m rfl hn
    obtain ⟨parent, hjoin, hend, hparent⟩ := pathJoin_concat h.named init n
    have hlink : Job.linkPath pr.2 = parent ++ m := by
      rw [Job.linkPath, hpath, hjoin, hn, ← List.append_assoc, stripSuffix_append]
      rfl
    have hslash : '/' ∉ m := by
      intro hmem
      exact n.property.2.2.2 (by rw [hn]; exact List.mem_append_left _ hmem)
    refine ⟨by rw [hlink, endsInName_append hend hslash], fun hm => ?_⟩
    have hname := locFrom_append_name (l := locOf cwd) hend ⟨m, hm⟩
    rw [hjob.fileLoc, hlink]
    show locFrom (locOf cwd) (parent ++ m) = _
    rw [hname, hparent, Loc.descend_descend]

/-- The job of the download: what its pairs are, as far as there is something to copy. -/
structure DownloadJob (cwd bucket p into : Str) (w : World) (job : Job) : Prop where
  crosses : job.Crosses
  dstRemote : job.dstRemote = false
  pairs : ∀ pr ∈ job.pairs, job.original w pr ≠ none → ∃ ns, ns ≠ [] ∧
    Fetches cwd bucket p into w job pr ns ∧ ' ' ∉ spellIn p ns ∧
      w (.object false bucket (spellIn p ns) []) ≠ none
  full : ∀ ns, ns ≠ [] → w (.object false bucket (spellIn p ns) []) ≠ none → ' ' ∉ spellIn p ns →
    ∃ pr ∈ job.pairs, Fetches cwd bucket p into w job pr ns

theorem LinksJob.download (h : LinkTrip b cwd dir bucket p into tree w₀)
    (hup : Uploaded cwd dir bucket p tree w₀ w₁) (hholds : b'.HoldsWorld w₁ (belowUrl bucket p))
    (hjob : LinksJob b' cwd (remotePath bucket (p ++ ['*'])) into job) :
    DownloadJob cwd bucket p into w₁ job := by
  obtain ⟨s3, objs, hs3, hserve, hobjs⟩ := hholds
  have hobjs' : ∀ key, (∃ o ∈ objs, StoredObject.key o = key) ↔
      w₁ (.object false bucket key []) ≠ none := hobjs
  have hplan := hjob.planned
  rw [download_planned h] at hplan
  have hside : job.dstRemote = false := hjob.side _ (into_parse h)
  have hkeys : ∀ o ∈ objs, p <+: o.key → ∃ ns, ns ≠ [] ∧ o.key = spellIn p ns :=
    fun o ho hpre => hup.exists_names hpre ((hobjs' o.key).mp ⟨o, ho, rfl⟩)
  refine ⟨hjob.crosses ?_, hside, ?_, ?_⟩
  · intro pr hpr
    obtain ⟨hrem, -⟩ := mem_download h.keyPrefix hs3 hserve hkeys hplan hpr
    rw [hrem, hside]
    rfl
  · intro pr hpr horig
    obtain ⟨hrem, hbucket, hversion, hdown⟩ := mem_download h.keyPrefix hs3 hserve hkeys hplan hpr
    have hcell : job.srcCell pr.1 = .object false bucket pr.1.path [] := by
      rw [Job.srcCell, if_pos hrem, hbucket, hversion]
    have hthere : w₁ (.object false bucket pr.1.path []) ≠ none := by
      intro hnone
      refine horig (Job.content_eq_none ?_)
      rw [hcell]
      exact hnone
    obtain ⟨ns, hns, hisDown, hspace⟩ := hdown ((hobjs' _).mpr hthere)
    rw [hisDown.path] at hthere
    exact ⟨ns, hns, fetches_of_isDownload h hjob w₁ hisDown, hspace, hthere⟩
  · intro ns hns hthere hspace
    obtain ⟨o, ho, hkey⟩ := (hobjs' _).mpr hthere
    obtain ⟨pr, hpr, hisDown⟩ := exists_isDownload h.keyPrefix hs3 hserve hplan ho hns hkey hspace
    exact ⟨pr, hpr, fetches_of_isDownload h hjob w₁ hisDown⟩

theorem Fetches.target_download {pr : Url × Url} {ns : List Name}
    (hpr : Fetches cwd bucket p into w₁ job pr ns) (ht : job.transferOf w₁ pr = .download) :
    job.target w₁ pr = .file ((locFrom (locOf cwd) into).descend ns) := by
  rw [Job.target, ht, ← hpr.dst]
  rfl

/-- A key with the suffix is that of a last name with it. -/
theorem exists_suffixed (hp : KeyPrefix p) {ns : List Name} (hns : ns ≠ [])
    (hsuf : linkSuffix <:+ spellIn p ns) :
    ∃ init n m, ns = init ++ [n] ∧ n.val = m ++ linkSuffix := by
  obtain ⟨init, n, rfl⟩ := exists_concat hns
  rw [spellIn_concat, suffix_append_iff (dirIn_slash hp.whole init)] at hsuf
  obtain ⟨m, hm⟩ := hsuf
  exact ⟨init, n, m, rfl, hm.symm⟩

/-- Nothing is in the directory before the download. -/
theorem Uploaded.vacant (hup : Uploaded cwd dir bucket p tree w₀ w₁)
    (h : LinkTrip b cwd dir bucket p into tree w₀) {ns : List Name} (hns : ns ≠ []) :
    w₁ (.file ((locFrom (locOf cwd) into).descend ns)) = none := by
  rw [hup.files]
  exact h.vacant ns hns

/-- Some download gets to its end. -/
theorem exists_download_run (h : LinkTrip b cwd dir bucket p into tree w₀)
    (hup : Uploaded cwd dir bucket p tree w₀ w₁) (hholds : b'.HoldsWorld w₁ (belowUrl bucket p)) :
    ∃ w₂, CpLinks b' cwd (remotePath bucket (p ++ ['*'])) into w₁ w₂ := by
  have hholds' := hholds
  obtain ⟨s3, objs, hs3, hserve, hobjs⟩ := hholds'
  have hkeys : ∀ o ∈ objs, p <+: o.key → ∃ ns, ns ≠ [] ∧ o.key = spellIn p ns :=
    fun o ho hpre => hup.exists_names hpre ((hobjs o.key).mp ⟨o, ho, rfl⟩)
  have hpairs := expandSources_below h.keyPrefix hs3 (dirUrl into)
  refine exists_cpLinks (into_parse h) ((download_planned h b').trans hpairs) ?_ ?_
  · intro pr hpr
    exact ⟨(mem_download h.keyPrefix hs3 hserve hkeys hpairs hpr).1,
      expandSources_isRemote hpairs pr hpr⟩
  · intro job hjob pr hpr horig ht
    obtain ⟨ns, hns, hfetch, -⟩ := (hjob.download h hup hholds).pairs pr hpr horig
    rw [hfetch.target_download ht]
    exact hup.vacant h hns

/-! ## What comes back has survived -/

/-- A file that is found where only the tree is was downloaded from a key of its own. -/
theorem Reproduced.file_origin (hrep : Reproduced tree (locFrom (locOf cwd) into) w₂)
    (h : LinkTrip b cwd dir bucket p into tree w₀) (hup : Uploaded cwd dir bucket p tree w₀ w₁)
    (hdown : DownloadJob cwd bucket p into w₁ job) {ns : List Name} {data : List UInt8}
    (hat : w₂ (.file ((locFrom (locOf cwd) into).descend ns)) = some (.bytes data))
    (horigin : job.Origin w₁ w₂ (.file ((locFrom (locOf cwd) into).descend ns))) :
    ¬ linkSuffix <:+ spellIn p ns ∧ ' ' ∉ spellIn p ns := by
  obtain ⟨pr, hpr, b, hb, hdel | hpour⟩ := horigin
  · -- what is delivered in one piece is a link
    exfalso
    have hlink : job.transferOf w₁ pr = .downloadLink := by
      rcases hdown.crosses.transferOf_cases hpr w₁ with ⟨hside, -⟩ | ⟨-, ht | ht⟩
      · rw [hdown.dstRemote] at hside
        cases hside
      · have hwhole := hdel.whole
        rw [ht] at hwhole
        cases hwhole
      · exact ht
    have hstored := hdel.stored
    rw [hat, hlink] at hstored
    cases hstored
  · obtain ⟨ms, hms, hfetch, hspace, hthere⟩ := hdown.pairs pr hpr (by simp [hb])
    have hno : ¬ linkSuffix <:+ spellIn p ms := by
      intro hsuf
      have ht := hfetch.transfer
      rw [if_pos hsuf, hpour.download] at ht
      cases ht
    obtain ⟨l, d, hl, -, hdirect | hthrough⟩ := hpour.bytes
    · have hsame := hfetch.dst.symm.trans (hdirect.trans (Cell.file.inj hl).symm)
      obtain rfl := descend_inj hsame
      exact ⟨hno, hspace⟩
    · -- it would have come through a link, and the links are those of the tree
      exfalso
      rw [hfetch.dst] at hthrough
      obtain ⟨node, hnode, t, k, rfl⟩ : ∃ node, tree.entry ms = some node ∧ ∃ t k, node = .link t k := by
        have hsame := hrep.same ms hms
        unfold World.next at hthrough
        rw [hsame] at hthrough
        cases hnode : tree.entry ms with
        | none => simp [hnode] at hthrough
        | some node =>
          cases node with
          | file d => simp [hnode, LinkNode.content] at hthrough
          | link t k => exact ⟨_, rfl, t, k, rfl⟩
      obtain ⟨ns', -, hshape⟩ := hup.keys _ (prefix_spellIn p _) hthere
      split at hshape
      · exact hno ⟨_, hshape.symm⟩
      · rename_i hplain
        obtain rfl := spellIn_inj hshape
        exact hplain ((h.isSymlink hnode).mpr ⟨t, k, rfl⟩)

/-- A link that is found was made from its placeholder. -/
theorem DownloadJob.link_origin (hdown : DownloadJob cwd bucket p into w₁ job) (hp : KeyPrefix p)
    {init : List Name} {n : Name} {t : Str}
    (hat : w₂ (.file ((locFrom (locOf cwd) into).descend (init ++ [n]))) = some (.link t))
    (horigin : job.Origin w₁ w₂ (.file ((locFrom (locOf cwd) into).descend (init ++ [n])))) :
    ' ' ∉ spellIn p (init ++ [n.suffixed]) ∧
      w₁ (.object false bucket (spellIn p (init ++ [n.suffixed])) []) ≠ none := by
  obtain ⟨pr, hpr, b, hb, hdel | hpour⟩ := horigin
  · obtain ⟨ms, hms, hfetch, hspace, hthere⟩ := hdown.pairs pr hpr (by simp [hb])
    have ht : job.transferOf w₁ pr = .downloadLink := by
      by_contra hne
      have hstored := hdel.stored
      rw [hat, Job.stored, if_neg hne] at hstored
      cases hstored
    have hsuf : linkSuffix <:+ spellIn p ms := by
      by_contra hno
      have htransfer := hfetch.transfer
      rw [if_neg hno, ht] at htransfer
      cases htransfer
    obtain ⟨init', n', m, rfl, hm⟩ := exists_suffixed hp hms hsuf
    obtain ⟨hnamed, hloc⟩ := hfetch.link init' n' m rfl hm
    have hname : IsName m := by
      rw [hdel.named ht] at hnamed
      exact of_decide_eq_true hnamed.symm
    have htarget := hdel.target
    rw [Job.target, ht] at htarget
    have hsame := (hloc hname).symm.trans (Cell.file.inj htarget)
    obtain ⟨rfl, hlast⟩ := List.append_singleton_inj.mp (descend_inj hsame)
    have hn' : n' = n.suffixed := by
      rw [← hlast]
      exact Subtype.ext hm
    rw [hn'] at hspace hthere
    exact ⟨hspace, hthere⟩
  · obtain ⟨l, d, hl, hd, -⟩ := hpour.bytes
    rw [hat] at hd
    cases hd

/-- **What comes back has survived.** -/
theorem survives_of_reproduced (h : LinkTrip b cwd dir bucket p into tree w₀)
    (hup : Uploaded cwd dir bucket p tree w₀ w₁) (hholds : b'.HoldsWorld w₁ (belowUrl bucket p))
    (hrun : CpLinks b' cwd (remotePath bucket (p ++ ['*'])) into w₁ w₂)
    (hrep : Reproduced tree (locFrom (locOf cwd) into) w₂) : tree.Survives p := by
  obtain ⟨job, hjob, sched, q, hq, hc, hsched, rfl⟩ := hrun
  have hdown := hjob.download h hup hholds
  have hcarried := Job.run_carried hdown.crosses hsched hq
  have hfound : ∀ names node, tree.node names = some node → texts names ≠ [] ∧
      tree.entry (texts names) = some node ∧
      q.shared (.file ((locFrom (locOf cwd) into).descend (texts names))) = some node.content := by
    intro names node hnode
    have hentry := LinkTree.entry_texts hrep.text hnode
    have hne := LinkTree.entry_ne_nil hentry
    exact ⟨hne, hentry, by rw [hrep.same _ hne, hentry]; rfl⟩
  have horigin : ∀ ns, ns ≠ [] → q.shared (.file ((locFrom (locOf cwd) into).descend ns)) ≠ none →
      job.Origin w₁ q.shared (.file ((locFrom (locOf cwd) into).descend ns)) := by
    intro ns hns hthere
    rcases hcarried.origins (.file ((locFrom (locOf cwd) into).descend ns)) with hsame | horigin
    · exact absurd (hsame.trans (hup.vacant h hns)) hthere
    · exact horigin
  have hfile : ∀ names data, tree.node names = some (.file data) →
      ¬ linkSuffix <:+ spellIn p (texts names) ∧ ' ' ∉ spellIn p (texts names) := by
    intro names data hnode
    obtain ⟨hne, -, hat⟩ := hfound names _ hnode
    exact hrep.file_origin h hup hdown hat (horigin _ hne (by rw [hat]; simp))
  have hlink : ∀ names t k, tree.node names = some (.link t k) → ∃ init n, texts names = init ++ [n] ∧
      ' ' ∉ spellIn p (init ++ [n.suffixed]) ∧
        w₁ (.object false bucket (spellIn p (init ++ [n.suffixed])) []) ≠ none := by
    intro names t k hnode
    obtain ⟨hne, -, hat⟩ := hfound names _ hnode
    have hfrom := horigin _ hne (by rw [hat]; simp)
    obtain ⟨init, n, heq⟩ := exists_concat hne
    rw [heq] at hat hfrom
    exact ⟨init, n, heq, hdown.link_origin h.keyPrefix hat hfrom⟩
  have hplain : ∀ names data, tree.node names = some (.file data) → ∀ n, names.getLast? = some n →
      ¬ linkSuffix <:+ n.text.val := by
    intro names data hnode n hlast hsuf
    obtain ⟨init, rfl⟩ := List.getLast?_eq_some_iff.mp hlast
    refine (hfile _ data hnode).1 ?_
    have htexts : texts (init ++ [n]) = texts init ++ [n.text] := by simp [texts]
    rw [htexts, spellIn_concat]
    exact (suffix_append_iff (dirIn_slash h.keyPrefix.whole _) _).mpr hsuf
  refine ⟨hrep.text, hplain, ?_, ?_⟩
  · intro names t k hnode
    obtain ⟨init, n, heq, -, hthere⟩ := hlink names t k hnode
    obtain ⟨ns, hwalked, hshape⟩ := hup.keys _ (prefix_spellIn p _) hthere
    obtain ⟨names', node', hnode', hcase⟩ := hwalked
    split at hshape
    · -- the placeholder is of a link that the walk came by
      rw [← spellIn_suffixed] at hshape
      obtain rfl := spellIn_inj (List.append_cancel_right hshape)
      rcases hcase with ⟨hkind, hsame⟩ | ⟨-, below, hbelow, hsame⟩
      · have hnames : names = names' := by
          rw [← ofTexts_texts (hrep.text names (by simp [hnode])), heq, hsame,
            ofTexts_texts (hrep.text names' (by simp [hnode']))]
        rw [← hnames, hnode] at hnode'
        rw [← Option.some.inj hnode'] at hkind
        exact hkind
      · exact absurd (heq.trans hsame) (LinkTree.not_below hrep.text (by simp [hnode'])
          (by simp [hnode]) hbelow)
    · -- a file with the suffix: none is an entry, and none lies beside an entry below a link
      rename_i hno
      obtain rfl := spellIn_inj hshape
      exfalso
      rcases hcase with ⟨-, hsame⟩ | ⟨-, below, hbelow, hsame⟩
      · cases node' with
        | file data =>
          have hlast : (texts names').getLast? = some n.suffixed := by
            rw [← hsame]
            simp
          rw [texts, List.getLast?_map] at hlast
          obtain ⟨x, hx, hxn⟩ := Option.map_eq_some_iff.mp hlast
          refine hplain names' data hnode' x hx ?_
          rw [hxn]
          exact ⟨n.val, rfl⟩
        | link t' k' =>
          refine hno ((h.isSymlink ?_).mpr ⟨t', k', rfl⟩)
          rw [hsame]
          exact LinkTree.entry_texts hrep.text hnode'
      · obtain ⟨below', x, rfl⟩ := exists_concat hbelow
        rw [← List.append_assoc] at hsame
        obtain ⟨rfl, -⟩ := List.append_singleton_inj.mp hsame
        have hin : texts names = texts names' ++ (below' ++ [n]) := by rw [heq, List.append_assoc]
        exact LinkTree.not_below hrep.text (by simp [hnode']) (by simp [hnode]) (by simp) hin
  · intro names hthere
    obtain ⟨node, hnode⟩ := Option.ne_none_iff_exists'.mp hthere
    cases node with
    | file data => exact (hfile names data hnode).2
    | link t k =>
      obtain ⟨init, n, heq, hspace, -⟩ := hlink names t k hnode
      rw [heq]
      intro hmem
      refine hspace ?_
      rw [← spellIn_suffixed]
      exact List.mem_append_left _ hmem

/-! ## What survives comes back -/

/-- The branch that brings an entry back. -/
def LinkNode.fetch : LinkNode → Transfer
  | .file _ => .download
  | .link _ _ => .downloadLink

/-- The pair brings the entry back to its place. -/
structure Restores (cwd bucket p into : Str) (w : World) (job : Job) (pr : Url × Url)
    (ns : List Name) (node : LinkNode) : Prop where
  source : job.srcCell pr.1 = .object false bucket (node.keyIn p ns) []
  target : job.target w pr = .file ((locFrom (locOf cwd) into).descend ns)
  transfer : job.transferOf w pr = node.fetch
  named : job.transferOf w pr = .downloadLink → Job.endsInName (Job.linkPath pr.2) = true

theorem Fetches.restores_file {pr : Url × Url} {ns : List Name}
    (hpr : Fetches cwd bucket p into w₁ job pr ns) (hp : KeyPrefix p) (hsurvives : tree.Survives p)
    {data : List UInt8} (hentry : tree.entry ns = some (.file data)) :
    Restores cwd bucket p into w₁ job pr ns (.file data) := by
  have ht : job.transferOf w₁ pr = .download := by
    obtain ⟨init, n, rfl⟩ := exists_concat (LinkTree.entry_ne_nil hentry)
    have hno := hsurvives.not_suffix hentry
    rw [← suffix_append_iff (dirIn_slash hp.whole init), ← spellIn_concat] at hno
    rw [hpr.transfer, if_neg hno]
  refine ⟨hpr.source, hpr.target_download ht, ht, fun h => ?_⟩
  rw [ht] at h
  cases h

theorem Fetches.restores_link {pr : Url × Url} {init : List Name} {n : Name}
    (hpr : Fetches cwd bucket p into w₁ job pr (init ++ [n.suffixed])) (t : Str)
    (k : Option FileKind) : Restores cwd bucket p into w₁ job pr (init ++ [n]) (.link t k) := by
  have hkey := spellIn_suffixed p init n
  have ht : job.transferOf w₁ pr = .downloadLink := by
    rw [hpr.transfer, if_pos ⟨_, hkey⟩]
  obtain ⟨hnamed, hloc⟩ := hpr.link init n.suffixed n.val rfl rfl
  refine ⟨?_, ?_, ht, fun _ => ?_⟩
  · rw [hpr.source, ← hkey]
    rfl
  · rw [Job.target, ht]
    exact congrArg Cell.file (hloc n.property)
  · rw [hnamed]
    exact decide_eq_true n.property

/-- The content that is brought back is that of the entry. -/
theorem Restores.content {pr : Url × Url} {ns : List Name} {node : LinkNode}
    (hpr : Restores cwd bucket p into w₁ job pr ns node)
    (hstored : w₁ (.object false bucket (node.keyIn p ns) []) = some (.bytes node.payload)) :
    job.original w₁ pr = some node.payload ∧
      Job.stored (job.transferOf w₁ pr) node.payload = node.content := by
  have hread : w₁.read (.object false bucket (node.keyIn p ns) []) = some node.payload := by
    rw [World.read_object, World.bytesAt, hstored]
  rw [Job.original, hpr.source, hpr.transfer]
  cases node with
  | file data => exact ⟨hread, rfl⟩
  | link t k =>
    refine ⟨hread, ?_⟩
    show Content.link (Utf8.decodeLossy (Utf8.encode t)) = .link t
    rw [Utf8.decodeLossy_encode]

/-- Every pair that finds something brings an entry back. -/
theorem DownloadJob.restores (hdown : DownloadJob cwd bucket p into w₁ job)
    (h : LinkTrip b cwd dir bucket p into tree w₀) (hup : Uploaded cwd dir bucket p tree w₀ w₁)
    (hsurvives : tree.Survives p) {pr : Url × Url} (hpr : pr ∈ job.pairs)
    (horig : job.original w₁ pr ≠ none) :
    ∃ ns node, tree.entry ns = some node ∧ Restores cwd bucket p into w₁ job pr ns node := by
  obtain ⟨ms, hms, hfetch, -, hthere⟩ := hdown.pairs pr hpr horig
  obtain ⟨ns, hwalked, hshape⟩ := hup.keys _ (prefix_spellIn p ms) hthere
  obtain ⟨node, hnode⟩ := hsurvives.of_walked hwalked
  have hsym := h.isSymlink hnode
  refine ⟨ns, node, hnode, ?_⟩
  cases node with
  | file data =>
    have hno : ¬ w₀.isSymlink (.file ((locFrom (locOf cwd) dir).descend ns)) = true := by
      rw [hsym]
      simp
    rw [if_neg hno] at hshape
    obtain rfl := spellIn_inj hshape
    exact hfetch.restores_file h.keyPrefix hsurvives hnode
  | link t k =>
    rw [if_pos (hsym.mpr ⟨t, k, rfl⟩)] at hshape
    obtain ⟨init, n, rfl⟩ := exists_concat (LinkTree.entry_ne_nil hnode)
    rw [spellIn_suffixed] at hshape
    obtain rfl := spellIn_inj hshape
    exact hfetch.restores_link t k

/-- Every entry is brought back by some pair. -/
theorem DownloadJob.exists_restores (hdown : DownloadJob cwd bucket p into w₁ job)
    (hp : KeyPrefix p) (hup : Uploaded cwd dir bucket p tree w₀ w₁)
    (hsurvives : tree.Survives p) {ns : List Name} {node : LinkNode}
    (hnode : tree.entry ns = some node) :
    ∃ pr ∈ job.pairs, Restores cwd bucket p into w₁ job pr ns node := by
  have hthere : w₁ (.object false bucket (node.keyIn p ns) []) ≠ none := by
    rw [hup.stored hsurvives ns node hnode]
    simp
  have hne := LinkTree.entry_ne_nil hnode
  have hspace : ' ' ∉ spellIn p ns := by
    have hnode' : tree.node (ofTexts ns) = some node := hnode
    have hspaceless := hsurvives.spaceless (ofTexts ns) (by simp [hnode'])
    rwa [texts_ofTexts] at hspaceless
  cases node with
  | file data =>
    obtain ⟨pr, hpr, hfetch⟩ := hdown.full ns hne hthere hspace
    exact ⟨pr, hpr, hfetch.restores_file hp hsurvives hnode⟩
  | link t k =>
    obtain ⟨init, n, rfl⟩ := exists_concat hne
    have hkey := spellIn_suffixed p init n
    have hthere' : w₁ (.object false bucket (spellIn p (init ++ [n.suffixed])) []) ≠ none := by
      rw [← hkey]
      exact hthere
    have hspace' : ' ' ∉ spellIn p (init ++ [n.suffixed]) := by
      rw [← hkey, List.mem_append, not_or]
      exact ⟨hspace, by decide⟩
    obtain ⟨pr, hpr, hfetch⟩ := hdown.full _ (by simp) hthere' hspace'
    exact ⟨pr, hpr, hfetch.restores_link t k⟩

/-- **What survives comes back.** -/
theorem reproduced_of_survives (h : LinkTrip b cwd dir bucket p into tree w₀)
    (hup : Uploaded cwd dir bucket p tree w₀ w₁) (hholds : b'.HoldsWorld w₁ (belowUrl bucket p))
    (hrun : CpLinks b' cwd (remotePath bucket (p ++ ['*'])) into w₁ w₂)
    (hsurvives : tree.Survives p) : Reproduced tree (locFrom (locOf cwd) into) w₂ := by
  obtain ⟨job, hjob, sched, q, hq, hc, hsched, rfl⟩ := hrun
  have hdown := hjob.download h hup hholds
  have hapart : job.Apart w₁ := by
    refine ⟨?_, ?_, ?_⟩
    · intro pr hpr pr' hpr' horig horig' heq
      obtain ⟨ns, node, hnode, hrest⟩ := hdown.restores h hup hsurvives hpr horig
      obtain ⟨ms, node', hnode', hrest'⟩ := hdown.restores h hup hsurvives hpr' horig'
      have hsame := Cell.file.inj (hrest.target.symm.trans (heq.trans hrest'.target))
      obtain rfl := descend_inj hsame
      obtain rfl := Option.some.inj (hnode.symm.trans hnode')
      have hstored := hup.stored hsurvives _ _ hnode
      exact ⟨hrest.transfer.trans hrest'.transfer.symm,
        (hrest.content hstored).1.trans (hrest'.content hstored).1.symm⟩
    · intro pr hpr horig _
      obtain ⟨ns, node, hnode, hrest⟩ := hdown.restores h hup hsurvives hpr horig
      rw [hrest.target]
      exact hup.vacant h (LinkTree.entry_ne_nil hnode)
    · intro pr hpr horig ht
      obtain ⟨ns, node, -, hrest⟩ := hdown.restores h hup hsurvives hpr horig
      exact hrest.named ht
  obtain ⟨hplaced, hframe⟩ := Job.run_placed hdown.crosses hapart hsched hq hc
  refine ⟨hsurvives.text, fun ns hns => ?_⟩
  cases hnode : tree.entry ns with
  | none =>
    rcases hframe (.file ((locFrom (locOf cwd) into).descend ns)) with hsame | ⟨pr, hpr, horig, heq⟩
    · exact hsame.trans (hup.vacant h hns)
    · obtain ⟨ms, node, hms, hrest⟩ := hdown.restores h hup hsurvives hpr horig
      obtain rfl := descend_inj (Cell.file.inj (hrest.target.symm.trans heq))
      rw [hnode] at hms
      cases hms
  | some node =>
    obtain ⟨pr, hpr, hrest⟩ := hdown.exists_restores h.keyPrefix hup hsurvives hnode
    obtain ⟨horig, hcontent⟩ := hrest.content (hup.stored hsurvives ns node hnode)
    obtain ⟨data, hdata, hat⟩ := hplaced pr hpr (by simp [horig])
    obtain rfl := Option.some.inj (horig.symm.trans hdata)
    rw [← hrest.target, hat, hcontent]
    rfl

end Download

/-- **Links there and back.** Both commands get to an end; and whatever the order of their
transfers, the tree is reproduced exactly if its names are valid UTF-8 without a space, no
regular file has the suffix and every link leads to a regular file. -/
theorem links_round_trip_iff (b : Backend) (cwd dir bucket p into : Str) (tree : LinkTree)
    (w₀ : World) (h : LinkTrip b cwd dir bucket p into tree w₀) :
    (∃ w₁, CpLinks b cwd dir (remotePath bucket p) w₀ w₁) ∧
      ∀ w₁, CpLinks b cwd dir (remotePath bucket p) w₀ w₁ →
        ∀ b' : Backend, b'.HoldsWorld w₁ (belowUrl bucket p) →
          (∃ w₂, CpLinks b' cwd (remotePath bucket (p ++ ['*'])) into w₁ w₂) ∧
            ∀ w₂, CpLinks b' cwd (remotePath bucket (p ++ ['*'])) into w₁ w₂ →
              (Reproduced tree (locFrom (locOf cwd) into) w₂ ↔ tree.Survives p) := by
  refine ⟨exists_upload_run h, fun w₁ hrun b' hholds => ?_⟩
  have hup := uploaded h hrun
  refine ⟨exists_download_run h hup hholds, fun w₂ hrun' => ⟨?_, ?_⟩⟩
  · exact survives_of_reproduced h hup hholds hrun'
  · exact reproduced_of_survives h hup hholds hrun'

/-! ## Trees to run with -/

/-- A tree given by its entries: their names are text, and no link leads to a directory. -/
structure LinkEntries where
  list : List (List Name × LinkNode)
  named : ∀ e ∈ list, e.1 ≠ []
  once : (list.map Prod.fst).Nodup
  leaf : ∀ v ∈ list, ∀ w ∈ list, v.1 <+: w.1 → v.1 = w.1
  flat : ∀ e ∈ list, e.2.kind ≠ some .dir

namespace LinkEntries

variable (es : LinkEntries)

/-- The entry that is found by an injective description of its names. -/
theorem find_eq {α : Type*} [DecidableEq α] {f : List Name → α} (hf : Function.Injective f)
    {e : List Name × LinkNode} (he : e ∈ es.list) :
    es.list.find? (fun e' => f e'.1 = f e.1) = some e := by
  cases hfind : es.list.find? fun e' => f e'.1 = f e.1 with
  | none =>
    have := List.find?_eq_none.mp hfind e he
    simp at this
  | some e' =>
    have hmem := List.mem_of_find?_eq_some hfind
    have hsame : f e'.1 = f e.1 := by simpa using List.find?_some hfind
    rw [List.inj_on_of_nodup_map es.once hmem he (hf hsame)]

def tree : LinkTree where
  node names :=
    if ∀ n ∈ names, n.IsText then (es.list.find? fun e => e.1 = texts names).map Prod.snd else none
  top := by
    have hnone : es.list.find? (fun e => e.1 = texts []) = none := by
      rw [List.find?_eq_none]
      intro e he
      simpa [texts] using es.named e he
    simp [hnone]
  leaf := by
    intro v w hv hw hpre
    have hentry : ∀ names : List OsName, (if ∀ n ∈ names, n.IsText then
        (es.list.find? fun e => e.1 = texts names).map Prod.snd else none) ≠ none →
        (∀ n ∈ names, n.IsText) ∧ ∃ e ∈ es.list, e.1 = texts names := by
      intro names h
      split at h
      · rename_i htext
        obtain ⟨node, hnode⟩ := Option.ne_none_iff_exists'.mp h
        obtain ⟨e, he, -⟩ := Option.map_eq_some_iff.mp hnode
        exact ⟨htext, e, List.mem_of_find?_eq_some he, by simpa using List.find?_some he⟩
      · exact absurd rfl h
    obtain ⟨hvtext, e, he, hev⟩ := hentry v hv
    obtain ⟨hwtext, e', he', hew⟩ := hentry w hw
    have hsame : texts v = texts w := by
      rw [← hev, ← hew]
      refine es.leaf e he e' he' ?_
      rw [hev, hew]
      exact hpre.map OsName.text
    rw [← ofTexts_texts hvtext, hsame, ofTexts_texts hwtext]

theorem mem_of_node {names : List OsName} {node : LinkNode} (h : es.tree.node names = some node) :
    (∀ n ∈ names, n.IsText) ∧ (texts names, node) ∈ es.list := by
  simp only [tree] at h
  split at h
  · rename_i htext
    obtain ⟨e, he, rfl⟩ := Option.map_eq_some_iff.mp h
    have hname : e.1 = texts names := by simpa using List.find?_some he
    rw [← hname]
    exact ⟨htext, List.mem_of_find?_eq_some he⟩
  · cases h

theorem entry_iff {ns : List Name} {node : LinkNode} :
    es.tree.entry ns = some node ↔ (ns, node) ∈ es.list := by
  constructor
  · intro h
    have := (es.mem_of_node h).2
    rwa [texts_ofTexts] at this
  · intro h
    have htext : ∀ n ∈ ofTexts ns, n.IsText := by
      intro n hn
      obtain ⟨t, -, rfl⟩ := List.mem_map.mp hn
      exact OsName.isText_ofText t
    have hfind := es.find_eq (f := id) Function.injective_id h
    show (if ∀ n ∈ ofTexts ns, n.IsText then
      (es.list.find? fun e => e.1 = texts (ofTexts ns)).map Prod.snd else none) = some node
    rw [if_pos htext, texts_ofTexts]
    exact congrArg (Option.map Prod.snd) hfind

/-- The directory `/s/` with the entries in it; a link that leads nowhere is reported. -/
def fs : LocalFs where
  symlinkMetadata p :=
    if p = "/s/".toList then .ok ⟨.dir, 0, none⟩
    else
      match es.list.find? fun e => spellIn "/s/".toList e.1 = p with
      | some e => .ok ⟨e.2.ownKind, 0, none⟩
      | none => .error (.notFound [])
  metadata p := if p = "/s/".toList then .ok ⟨.dir, 0, none⟩ else .error (.notFound [])
  glob _ := .ok []
  walkDir _ _ := es.list.map fun e =>
    if e.2.kind = some .file then .ok ⟨spellIn "/s/".toList e.1, .file⟩
    else .error ⟨some (spellIn "/s/".toList e.1), "No such file or directory".toList⟩
  md5Hex _ := none

def backend : Backend where
  newS3 _ := .ok (.ofPages [])
  fs := es.fs

/-- The entries below `/s/`, and no objects. -/
def world : World
  | .file l => (es.list.find? fun e => (locOf "/s/".toList).descend e.1 = l).map fun e => e.2.content
  | .object .. => none

theorem follows : es.fs.Follows "/s/".toList es.tree where
  isDir := ⟨⟨.dir, 0, none⟩, rfl, rfl⟩
  ownDir := ⟨⟨.dir, 0, none⟩, rfl, rfl⟩
  stat := by
    intro ns node h
    have hmem := es.entry_iff.mp h
    have hne : spellIn "/s/".toList ns ≠ "/s/".toList := spellIn_ne (es.named _ hmem)
    have hfind := es.find_eq (f := spellIn "/s/".toList) (fun _ _ => spellIn_inj) hmem
    refine ⟨⟨node.ownKind, 0, none⟩, ?_, rfl⟩
    simp only [fs, if_neg hne]
    rw [hfind]
  found := by
    intro names node hnode hkind
    refine List.mem_map.mpr ⟨_, (es.mem_of_node hnode).2, ?_⟩
    rw [if_pos hkind]
  only := by
    intro entry hentry _
    obtain ⟨e, he, heq⟩ := List.mem_map.mp hentry
    split at heq
    · rename_i hkind
      obtain rfl := Except.ok.inj heq
      have hnode : es.tree.entry e.1 = some e.2 := es.entry_iff.mpr he
      exact ⟨e.1, ⟨ofTexts e.1, e.2, hnode, .inl ⟨hkind, (texts_ofTexts e.1).symm⟩⟩, rfl⟩
    · cases heq

/-- The tree is in `/s/`, nothing is in the bucket, and nothing is in `/d/`. -/
theorem trip : LinkTrip es.backend "/".toList "/s/".toList "b".toList [] "/d/".toList es.tree
    es.world where
  spelled := ⟨by decide, by decide, by decide, by decide⟩
  bucketName := ⟨by decide, by decide, by decide⟩
  keyPrefix := ⟨rfl, .inl rfl⟩
  follows := es.follows
  held := by
    intro ns node h
    have hfind := es.find_eq (f := fun v => (locOf "/s/".toList).descend v) (fun _ _ => descend_inj)
      (es.entry_iff.mp h)
    have hloc : locFrom (locOf "/".toList) "/s/".toList = locOf "/s/".toList := by decide
    rw [hloc]
    simp only [world]
    rw [hfind]
    rfl
  fresh := fun _ _ => rfl
  named := by decide
  noScheme := by decide
  vacant := by
    intro ns hns
    have hd : locFrom (locOf "/".toList) "/d/".toList = ⟨true, 0, namesOf ["d"], fun _ => rfl⟩ := by
      decide
    have hs : locOf "/s/".toList = ⟨true, 0, namesOf ["s"], fun _ => rfl⟩ := by decide
    have hnone : es.list.find? (fun e => (locOf "/s/".toList).descend e.1 =
        (locFrom (locOf "/".toList) "/d/".toList).descend ns) = none := by
      rw [List.find?_eq_none, hd, hs]
      intro e he
      rw [decide_eq_true_eq]
      intro heq
      have hnames := congrArg Loc.names heq
      rw [Loc.descend_names, Loc.descend_names] at hnames
      have hhead : namesOf ["s"] = namesOf ["d"] := (List.append_inj hnames (by decide)).1
      exact absurd hhead (by decide)
    simp only [world, hnone]
    rfl

theorem survives (hplain : ∀ e ∈ es.list, ∀ n ∈ e.1.getLast?, ¬ linkSuffix <:+ n.val)
    (hled : ∀ e ∈ es.list, e.2.kind = some .file) (hspace : ∀ e ∈ es.list, ' ' ∉ spellIn [] e.1) :
    es.tree.Survives [] where
  text := by
    intro names hthere
    obtain ⟨node, hnode⟩ := Option.ne_none_iff_exists'.mp hthere
    exact (es.mem_of_node hnode).1
  plain := by
    intro names data hnode n hlast
    refine hplain _ (es.mem_of_node hnode).2 n.text ?_
    rw [texts, List.getLast?_map, hlast]
    rfl
  led := by
    intro names t k hnode
    exact hled _ (es.mem_of_node hnode).2
  spaceless := by
    intro names hthere
    obtain ⟨node, hnode⟩ := Option.ne_none_iff_exists'.mp hthere
    exact hspace _ (es.mem_of_node hnode).2

end LinkEntries

/-- A world with a few objects can be listed. -/
theorem exists_holdsWorld {p : Str} (hp : KeyPrefix p) (bucket : Str) {w : World} (keys : List Str)
    (hkeys : ∀ key, w (.object false bucket key []) ≠ none → key ∈ keys) :
    ∃ b : Backend, b.HoldsWorld w (belowUrl bucket p) := by
  have hw := isPattern_belowUrl hp bucket
  let objs : List StoredObject :=
    (keys.filter fun key => (w (.object false bucket key [])).isSome).map fun key => { key := key }
  let page : Page :=
    { contents := (objs.filter fun o => p <+: o.key).map (StoredObject.entry urlEncode) }
  refine ⟨.ofPages [.ok page], .ofPages [.ok page], objs, rfl, ⟨[page], fun c => ?_, rfl⟩,
    fun key => ?_⟩
  · constructor
    · rintro ⟨page', hpage, hc⟩
      rw [List.mem_singleton.mp hpage] at hc
      obtain ⟨o, ho, rfl⟩ := List.mem_map.mp hc
      obtain ⟨hmem, hpre⟩ := List.mem_filter.mp ho
      refine ⟨o, hmem, hw.covers_iff.mpr ?_, rfl⟩
      rw [keyPrefix_belowUrl hp]
      simpa using hpre
    · rintro ⟨o, ho, hcov, rfl⟩
      have hpre := hw.covers_iff.mp hcov
      rw [keyPrefix_belowUrl hp] at hpre
      have hin : o ∈ objs.filter fun o => p <+: o.key := List.mem_filter.mpr ⟨ho, by simpa using hpre⟩
      exact ⟨page, List.mem_singleton_self _, List.mem_map_of_mem hin⟩
  · constructor
    · rintro ⟨o, ho, rfl⟩
      obtain ⟨key, hkey, rfl⟩ := List.mem_map.mp ho
      exact Option.isSome_iff_ne_none.mp (List.mem_filter.mp hkey).2
    · intro hthere
      refine ⟨{ key := key }, List.mem_map.mpr ⟨key, List.mem_filter.mpr ⟨hkeys key hthere, ?_⟩, rfl⟩,
        rfl⟩
      exact Option.isSome_iff_ne_none.mpr hthere

namespace LinkSample

/-- The file `f` and a link to it. -/
def linked : LinkEntries where
  list := [(namesOf ["f"], .file [1, 2]), (namesOf ["l"], .link "f".toList (some .file))]
  named := by decide
  once := by decide
  leaf := by decide
  flat := by decide

/-- A link that leads nowhere. -/
def dangling : LinkEntries where
  list := [(namesOf ["l"], .link "gone".toList none)]
  named := by decide
  once := by decide
  leaf := by decide
  flat := by decide

/-- The file and the link come back. -/
theorem links_round_trip_linked :
    ∃ w₁ b' w₂, CpLinks linked.backend "/".toList "/s/".toList (remotePath "b".toList []) linked.world w₁ ∧
      b'.HoldsWorld w₁ (belowUrl "b".toList []) ∧
      CpLinks b' "/".toList (remotePath "b".toList ['*']) "/d/".toList w₁ w₂ ∧
      Reproduced linked.tree (locOf "/d/".toList) w₂ := by
  obtain ⟨⟨w₁, hup⟩, hall⟩ := links_round_trip_iff _ _ _ _ _ _ _ _ linked.trip
  have hkeys : ∀ key, w₁ (.object false "b".toList key []) ≠ none →
      key ∈ (linked.list.map fun e => spellIn [] e.1) ++
        linked.list.map fun e => spellIn [] e.1 ++ linkSuffix := by
    intro key hthere
    obtain ⟨ns, ⟨names, node, hnode, hcase⟩, hkey⟩ :=
      (uploaded linked.trip hup).keys key List.nil_prefix hthere
    obtain ⟨-, hmem⟩ := linked.mem_of_node hnode
    rcases hcase with ⟨-, rfl⟩ | ⟨hdir, -⟩
    · rw [List.mem_append, hkey]
      split
      · exact .inr (List.mem_map.mpr ⟨_, hmem, rfl⟩)
      · exact .inl (List.mem_map.mpr ⟨_, hmem, rfl⟩)
    · exact absurd hdir (linked.flat _ hmem)
  obtain ⟨b', hholds⟩ := exists_holdsWorld linked.trip.keyPrefix "b".toList _ hkeys
  obtain ⟨⟨w₂, hdown⟩, hiff⟩ := hall w₁ hup b' hholds
  refine ⟨w₁, b', w₂, hup, hholds, hdown, (hiff w₂ hdown).mpr ?_⟩
  exact linked.survives (by decide) (by decide) (by decide)

/-- The link that leads nowhere does not. -/
theorem links_round_trip_dangling :
    LinkTrip dangling.backend "/".toList "/s/".toList "b".toList [] "/d/".toList dangling.tree
        dangling.world ∧
      ∃ w₁ b' w₂,
        CpLinks dangling.backend "/".toList "/s/".toList (remotePath "b".toList []) dangling.world w₁ ∧
        b'.HoldsWorld w₁ (belowUrl "b".toList []) ∧
        CpLinks b' "/".toList (remotePath "b".toList ['*']) "/d/".toList w₁ w₂ ∧
        ¬ Reproduced dangling.tree (locOf "/d/".toList) w₂ := by
  have htrip := dangling.trip
  obtain ⟨w₁, hrun⟩ := exists_upload_run htrip
  have hup := uploaded htrip hrun
  have hkeys : ∀ key, w₁ (.object false "b".toList key []) ≠ none → key ∈ ([] : List Str) := by
    intro key hthere
    obtain ⟨ns, ⟨names, node, hnode, hcase⟩, -⟩ := hup.keys key List.nil_prefix hthere
    have hmem := (dangling.mem_of_node hnode).2
    have hnothing : ∀ e ∈ dangling.list, e.2.kind = none := by decide
    rcases hcase with ⟨hkind, -⟩ | ⟨hkind, -⟩
    · rw [hnothing _ hmem] at hkind
      cases hkind
    · rw [hnothing _ hmem] at hkind
      cases hkind
  obtain ⟨b', hholds⟩ := exists_holdsWorld htrip.keyPrefix "b".toList _ hkeys
  obtain ⟨w₂, hrun'⟩ := exists_download_run htrip hup hholds
  refine ⟨htrip, w₁, b', w₂, hrun, hholds, hrun', fun hrep => ?_⟩
  have hsurvives := survives_of_reproduced htrip hup hholds hrun' hrep
  have hentry : dangling.tree.entry (namesOf ["l"]) = some (.link "gone".toList none) :=
    dangling.entry_iff.mpr (by decide)
  have hled := hsurvives.led _ _ _ hentry
  cases hled

end LinkSample

end Rs5cmd
