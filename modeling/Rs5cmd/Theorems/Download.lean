import Rs5cmd.Command.SyncSpec
import Rs5cmd.Storage.S3.DownloadSpec

/-!
# Failed downloads and the next sync

When a download fails after the destination has been given the object's size,
the file left behind looks complete to a size comparison. This module says
exactly for which faults that can happen.
-/

namespace Rs5cmd

/-! ## What the next plan sees -/

/-- The file as a listing reports it under the URL `u`. -/
def LocalFile.listed (u : Url) (f : LocalFile) : Object :=
  { url := some u, typ := .file, size := f.bytes.length, modTime := some f.modTime }

/-- Every plan of the strategy whose source lists `src` and whose destination
lists the file under the same relative path copies `src`. -/
def Reselected (strategy : SyncStrategy) (src : Object) (file : Option LocalFile) : Prop :=
  ∀ (u v dst : Url) (isBatch delete : Bool) (k : Str) (source dest : ObjectMap), HasUrls source →
    src.url = some u → source[k]? = some src → dest[k]? = file.map (LocalFile.listed v) →
      (u, generateDestinationUrl u dst isBatch) ∈
        (partition strategy dst isBatch delete source dest).toCopy

/-- A file of another size is copied again, by size alone and by default. -/
theorem reselected_of_ne {strategy : SyncStrategy} (hstrat : strategy ≠ .checksum) {src : Object}
    {f : LocalFile} (h : src.size ≠ f.bytes.length) : Reselected strategy src (some f) := by
  intro u v dst isBatch delete k source dest hurls hu hsrc hdest
  refine (mem_toCopy hurls).mpr ⟨k, src, hsrc, hu, rfl, ?_⟩
  rw [hdest]
  cases strategy with
  | checksum => exact absurd rfl hstrat
  | sizeOnly => simp [Copies, SyncStrategy.shouldSync, LocalFile.listed, h]
  | sizeAndModification => simp [Copies, SyncStrategy.shouldSync, LocalFile.listed, h]

theorem getElem?_insert_empty {k k' : Str} {v obj : Object}
    (h : ((∅ : ObjectMap).insert k v)[k']? = some obj) : k' = k ∧ obj = v := by
  rw [Std.ExtTreeMap.getElem?_insert] at h
  split at h
  · rename_i heq
    exact ⟨(Std.LawfulEqCmp.eq_of_compare heq).symm, (Option.some.inj h).symm⟩
  · simp at h

/-- A file of the object's size is taken for the object by a size comparison. -/
theorem not_reselected_of_eq {src : Object} {u : Url} (hu : src.url = some u) {f : LocalFile}
    (h : src.size = f.bytes.length) : ¬ Reselected .sizeOnly src (some f) := by
  intro hsel
  have hurls : HasUrls ((∅ : ObjectMap).insert [] src) := by
    intro k obj hobj
    obtain ⟨-, rfl⟩ := getElem?_insert_empty hobj
    simp [hu]
  have hmem := hsel u u u false false [] ((∅ : ObjectMap).insert [] src)
    ((∅ : ObjectMap).insert [] (f.listed u)) hurls hu (by simp) (by simp)
  obtain ⟨k, obj, hobj, -, -, hcopies⟩ := (mem_toCopy hurls).mp hmem
  obtain ⟨rfl, rfl⟩ := getElem?_insert_empty hobj
  simp [Copies, SyncStrategy.shouldSync, LocalFile.listed, h] at hcopies

/-! ## The faults a size comparison detects -/

/-- The first part is written and, for an object of several parts, so is each of
the others. -/
def PartsSucceed (opts : DownloadOpts) (env : DownloadEnv) (size : Nat) : Prop :=
  env.write 0 = none ∧ (opts.partSize < size → ∀ i, 1 ≤ i → i < nParts size opts.partSize →
    PartSucceeds env size opts.partSize i)

/-- No error comes after the file has been given the object's size: an earlier
step fails, or no later one does. On the single-GET path the file has that size
when all the object's bytes have reached it, which for an empty object is as
soon as it is created. -/
def Detectable (opts : DownloadOpts) (env : DownloadEnv) (size : Nat) : Prop :=
  opts.dryRun = true ∨ env.createDirAll.isSome = true ∨
    match env.get (some (0, opts.partSize - 1)) with
    | .error e =>
      isRangeNotSatisfiable e = true → ∀ resp, env.get none = .ok resp → env.openFile = none →
        reached env 0 resp.body.chunks < size ∨
          StreamsWell env resp.body.fails 0 resp.body.chunks
    | .ok resp =>
      resp.body.fails.isSome = true ∨ env.openFile.isSome = true ∨ env.setLen.isSome = true ∨
        PartsSucceed opts env size

section Parts

variable {opts : DownloadOpts} {env : DownloadEnv} {obj first : List UInt8} {resp : GetResponse}

/-- The file once it is sized and the first part is written as far as it goes. -/
def sizedFile (env : DownloadEnv) (total : Nat) (first : List UInt8) : LocalFile :=
  ((LocalFile.truncated (env.clock 0)).setLen (env.clock 1) total).writeAt (env.clock 2) 0
    ((env.write 0).written first)

theorem length_sizedFile (env : DownloadEnv) (hle : first.length ≤ obj.length) :
    (sizedFile env obj.length first).bytes.length = obj.length := by
  have hw := length_written_le (env.write 0) first
  rw [sizedFile, LocalFile.writeAt_bytes, Bytes.length_writeAt_of_le]
  · simp [LocalFile.setLen]
  · simp only [LocalFile.setLen, Bytes.length_setLen]
    omega

/-- Once the file is sized it keeps the object's size, and the download fails
exactly when a part does. -/
theorem downloadParts_spec (hs : ServesRanges obj env.get) (htotal : resp.total = obj.length)
    (hle : first.length ≤ obj.length) (hset : env.setLen = none)
    {sched : List (Pool.Event (Nat × Int))} {out : DownloadOutcome}
    (h : downloadParts opts env sched resp first = some out) :
    (∃ f, out.file = some f ∧ f.bytes.length = obj.length) ∧
      (out.failed ↔ ¬ PartsSucceed opts env obj.length) := by
  have hlen := length_sizedFile env hle
  simp only [downloadParts, hset, htotal] at h
  cases hw : env.write 0 with
  | some fault =>
    obtain ⟨n, e⟩ := fault
    simp only [hw, WriteFault.result, Option.some.injEq] at h
    subst h
    refine ⟨⟨sizedFile env obj.length first, by rw [sizedFile, hw], hlen⟩, ?_⟩
    exact iff_of_true ⟨e, rfl⟩ (by simp [PartsSucceed, hw])
  | none =>
    simp only [hw, WriteFault.result] at h
    have hfile : ((LocalFile.truncated (env.clock 0)).setLen (env.clock 1) obj.length).writeAt
        (env.clock 2) 0 (WriteFault.written none first) = sizedFile env obj.length first := by
      rw [sizedFile, hw]
    rw [hfile] at h
    split at h
    · -- the remaining parts
      rename_i hlt
      obtain ⟨res, hres, rfl⟩ := Option.map_eq_some_iff.mp h
      have hkeep := downloadRemainingParts_length hs hlen hres
      have hok := downloadRemainingParts_result hres
      cases hr : res.2 with
      | error e =>
        refine ⟨⟨res.1, rfl, hkeep⟩, iff_of_true ⟨e, rfl⟩ ?_⟩
        intro hsucc
        have := hok.mpr (hsucc.2 hlt)
        rw [hr] at this
        cases this
      | ok a =>
        refine ⟨⟨_, rfl, by rw [restoreMtime_bytes]; exact hkeep⟩, iff_of_false ?_ ?_⟩
        · rintro ⟨e, he⟩
          cases he
        · exact fun hn => hn ⟨hw, fun _ => hok.mp hr⟩
    · rename_i hlt
      obtain rfl := Option.some.inj h
      refine ⟨⟨_, rfl, by rw [restoreMtime_bytes]; exact hlen⟩, iff_of_false ?_ ?_⟩
      · rintro ⟨e, he⟩
        cases he
      · exact fun hn => hn ⟨hw, fun hlt' => absurd hlt' hlt⟩

theorem exists_downloadParts (opts : DownloadOpts) (env : DownloadEnv) (resp : GetResponse)
    (first : List UInt8) : ∃ sched out, downloadParts opts env sched resp first = some out := by
  obtain ⟨sched, res, hres⟩ := exists_downloadRemainingParts opts env resp.total
    (((LocalFile.truncated (env.clock 0)).setLen (env.clock 1) resp.total).writeAt
      (env.clock 2) 0 ((env.write 0).written first))
  refine ⟨sched, ?_⟩
  unfold downloadParts
  split
  · exact ⟨_, rfl⟩
  · dsimp only
    split
    · exact ⟨_, rfl⟩
    · split
      · exact ⟨_, by rw [hres]; rfl⟩
      · exact ⟨_, rfl⟩

end Parts

/-! ## From the faults to the next plan -/

section Paths

variable {opts : DownloadOpts} {env : DownloadEnv} {sched : List (Pool.Event (Nat × Int))}
  {before : Option LocalFile} {out : DownloadOutcome}

/-- **A download returns** under some schedule of its parts. -/
theorem exists_download (opts : DownloadOpts) (env : DownloadEnv) (before : Option LocalFile) :
    ∃ sched out, download opts env sched before = some out := by
  by_cases hparts : ∃ resp first, opts.dryRun = false ∧ env.createDirAll = none ∧
      env.get (some (0, opts.partSize - 1)) = .ok resp ∧ resp.body.collect = .ok first ∧
      env.openFile = none
  · obtain ⟨resp, first, hdry, hdir, hget, hfirst, hopen⟩ := hparts
    obtain ⟨sched, out, hout⟩ := exists_downloadParts opts env resp first
    exact ⟨sched, out, by rw [download_of_parts hdry hdir hget hfirst hopen, hout]⟩
  · refine ⟨[], ?_⟩
    unfold download
    repeat' split
    all_goals first
      | exact ⟨_, rfl⟩
      | simp_all

end Paths

section Claim

variable {opts : DownloadOpts} {env : DownloadEnv} {obj : List UInt8} {src : Object}

/-- The bytes of the first part end inside the object. -/
theorem ServesRanges.first_length_le (hs : ServesRanges obj env.get) {b : Nat} {resp : GetResponse}
    {first : List UInt8} (hget : env.get (some (0, b)) = .ok resp)
    (hfirst : resp.body.collect = .ok first) : first.length ≤ obj.length := by
  have hle := hs.add_length_le hget
  rw [(Body.collect_eq_ok.mp hfirst).2] at hle
  omega

/-- A failure that is not detectable leaves a new file of the object's size. -/
theorem exists_undetected (opts : DownloadOpts) (hs : ServesRanges obj env.get)
    (h : ¬ Detectable opts env obj.length) :
    ∃ sched out f, download opts env sched none = some out ∧ out.failed ∧ out.file = some f ∧
      f.bytes.length = obj.length := by
  unfold Detectable at h
  obtain ⟨hdry, h⟩ := not_or.mp h
  obtain ⟨hdir, h⟩ := not_or.mp h
  have hdry' : opts.dryRun = false := by simpa using hdry
  have hdir' : env.createDirAll = none := by simpa using hdir
  split at h
  · -- the range was refused and everything reached the file before the error
    rename_i e hget
    push Not at h
    obtain ⟨hrange, resp, hwhole, hopen, hreach, hwell⟩ := h
    obtain ⟨⟨f, hf, hlen⟩, hfail⟩ := streamChunks_spec env resp.body.fails 0 resp.body.chunks
      (.truncated (env.clock 0))
    refine ⟨[], _, f, download_of_stream hdry' hdir' hget hrange hwhole hopen, hfail.mpr hwell, hf, ?_⟩
    have hle := reached_le env 0 resp.body.chunks
    have hwle := (hs.whole resp hwhole).1.length_le
    have hzero : (LocalFile.truncated (env.clock 0)).bytes.length = 0 := rfl
    omega
  · rename_i resp hget
    obtain ⟨hbody, h⟩ := not_or.mp h
    obtain ⟨hopen, h⟩ := not_or.mp h
    obtain ⟨hset, h⟩ := not_or.mp h
    have hfirst : resp.body.collect = .ok resp.body.chunks.flatten :=
      Body.collect_eq_ok.mpr ⟨by simpa using hbody, rfl⟩
    have hopen' : env.openFile = none := by simpa using hopen
    have hset' : env.setLen = none := by simpa using hset
    obtain ⟨sched, out, hout⟩ := exists_downloadParts opts env resp resp.body.chunks.flatten
    obtain ⟨⟨f, hf, hlen⟩, hfail⟩ := downloadParts_spec hs (hs.total_eq hget)
      (hs.first_length_le hget hfirst) hset' hout
    refine ⟨sched, out, f, ?_, hfail.mpr h, hf, hlen⟩
    rw [download_of_parts hdry' hdir' hget hfirst hopen', hout]

/-- A detectable failure leaves the destination as it was, or a file of another
size than the object's. -/
theorem unchanged_or_ne_of_detectable (hs : ServesRanges obj env.get)
    (hdet : Detectable opts env obj.length) {sched : List (Pool.Event (Nat × Int))}
    {before : Option LocalFile} {out : DownloadOutcome}
    (h : download opts env sched before = some out) (hfail : out.failed) :
    out.file = before ∨ ∃ f, out.file = some f ∧ f.bytes.length ≠ obj.length := by
  rcases download_cases h with ⟨hsame, -⟩ | ⟨hdry, hdir, e, resp, hget, hrange, hwhole, hopen, rfl⟩ |
    ⟨hdry, hdir, resp, first, hget, hfirst, hopen, hparts⟩
  · exact .inl hsame
  · -- a single GET that failed before the object's last byte
    obtain ⟨⟨f, hf, hlen⟩, hiff⟩ := streamChunks_spec env resp.body.fails 0 resp.body.chunks
      (.truncated (env.clock 0))
    simp only [Detectable, hdry, hdir, hget, Bool.false_eq_true, Option.isSome_none, false_or] at hdet
    rcases hdet hrange resp hwhole hopen with hlt | hwell
    · refine .inr ⟨f, hf, ?_⟩
      have hzero : (LocalFile.truncated (env.clock 0)).bytes.length = 0 := rfl
      omega
    · exact absurd hwell (hiff.mp hfail)
  · simp only [Detectable, hdry, hdir, hget, hopen, (Body.collect_eq_ok.mp hfirst).1,
      Bool.false_eq_true, Option.isSome_none, false_or] at hdet
    cases hset : env.setLen with
    | some e =>
      -- the file was truncated, and the object is not empty
      obtain ⟨hpos, -⟩ := hs.range _ _ resp hget
      simp only [downloadParts, hset, Option.some.injEq] at hparts
      subst hparts
      refine .inr ⟨_, rfl, ?_⟩
      simp only [LocalFile.truncated, List.length_nil]
      omega
    | none =>
      obtain ⟨-, hiff⟩ := downloadParts_spec hs (hs.total_eq hget) (hs.first_length_le hget hfirst)
        hset hparts
      simp only [hset, Option.isSome_none, Bool.false_eq_true, false_or] at hdet
      exact absurd hdet (hiff.mp hfail)

/-- **Failed downloads, exactly.** Whatever the destination held and however the
parts are scheduled, a failed download leaves the destination as it was or in a
state that the next sync copies again, by size alone and by default, iff no
error comes after the file has been given the object's size. -/
theorem failed_download_detected_iff (opts : DownloadOpts) (env : DownloadEnv) (obj : List UInt8)
    (src : Object) (u : Url) (hu : src.url = some u) (hsize : src.size = obj.length)
    (hs : ServesRanges obj env.get) :
    (∀ sched before out, download opts env sched before = some out → out.failed →
        out.file = before ∨ (Reselected .sizeOnly src out.file ∧
          Reselected .sizeAndModification src out.file)) ↔
      Detectable opts env obj.length := by
  constructor
  · intro hsafe
    by_contra hdet
    obtain ⟨sched, out, f, hout, hfail, hf, hlen⟩ := exists_undetected opts hs hdet
    rcases hsafe sched none out hout hfail with hnone | ⟨hsel, -⟩
    · rw [hf] at hnone
      cases hnone
    · rw [hf] at hsel
      exact not_reselected_of_eq hu (by rw [hsize, hlen]) hsel
  · intro hdet sched before out hout hfail
    rcases unchanged_or_ne_of_detectable hs hdet hout hfail with hsame | ⟨f, hf, hne⟩
    · exact .inl hsame
    · right
      rw [hf]
      have hne' : src.size ≠ f.bytes.length := by
        rw [hsize]
        exact fun heq => hne (Int.ofNat.inj heq).symm
      exact ⟨reselected_of_ne (by decide) hne', reselected_of_ne (by decide) hne'⟩

/-- A disk that is full: no byte of the object can be written, once the file has
been given its size. -/
def fullDisk (obj : List UInt8) : DownloadEnv where
  get := serveObject obj
  write := fun _ => some (0, .msg "No space left on device".toList)

/-- A download of three bytes that fails for a full disk leaves three zeros, which
a sync by size takes for the object. -/
theorem failed_download_undetected :
    ServesRanges [1, 2, 3] (fullDisk [1, 2, 3]).get ∧
      ¬ ∀ sched before out, download {} (fullDisk [1, 2, 3]) sched before = some out → out.failed →
          out.file = before ∨
            (Reselected .sizeOnly { url := some (.ofString "s3://b/a.txt"), size := 3 } out.file ∧
              Reselected .sizeAndModification
                { url := some (.ofString "s3://b/a.txt"), size := 3 } out.file) := by
  have hserve : ServesRanges [1, 2, 3] (fullDisk [1, 2, 3]).get :=
    servesRanges_serveObject (by decide)
  refine ⟨hserve, ?_⟩
  intro hsafe
  have hdet : ¬ Detectable {} (fullDisk [1, 2, 3]) [1, 2, 3].length := by
    simp [Detectable, fullDisk, serveObject, PartsSucceed]
  obtain ⟨sched, out, f, hout, hfail, hf, hlen⟩ := exists_undetected {} hserve hdet
  rcases hsafe sched none out hout hfail with hnone | ⟨hsel, -⟩
  · rw [hf] at hnone
    cases hnone
  · rw [hf] at hsel
    exact not_reselected_of_eq rfl (by rw [hlen]; rfl) hsel

/-- A file system that refuses the object's size. -/
def sizeRefused (obj : List UInt8) : DownloadEnv where
  get := serveObject obj
  setLen := some (.msg "File too large".toList)

/-- When the file cannot be given its size, it stays empty and is copied again. -/
theorem failed_download_detected_unsized :
    (∃ out, download {} (sizeRefused [1, 2, 3]) [] none = some out ∧ out.failed) ∧
      ∀ sched before out, download {} (sizeRefused [1, 2, 3]) sched before = some out →
          out.failed → out.file = before ∨
            (Reselected .sizeOnly { url := some (.ofString "s3://b/a.txt"), size := 3 } out.file ∧
              Reselected .sizeAndModification
                { url := some (.ofString "s3://b/a.txt"), size := 3 } out.file) := by
  refine ⟨⟨_, rfl, ⟨_, rfl⟩⟩, ?_⟩
  exact (failed_download_detected_iff {} _ [1, 2, 3] _ (.ofString "s3://b/a.txt") rfl rfl
    (servesRanges_serveObject (by decide))).mpr
    (by simp [Detectable, sizeRefused, serveObject])

end Claim

end Rs5cmd
