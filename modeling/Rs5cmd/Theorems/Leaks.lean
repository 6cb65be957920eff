import Rs5cmd.Command.Pipe
import Rs5cmd.Storage.S3.DownloadContent
import Rs5cmd.Theorems.Download

/-!
# What transfers leave behind when they fail

A multipart upload is aborted when one of its parts fails, and only then: one that
the store does not complete stays, as does one whose id the client does not learn. A
client-side copy removes its temporary file after the upload, and only then.
-/

namespace Rs5cmd

/-! ## Multipart uploads -/

/-- The upload is not there any more, or its abort has been attempted. -/
def MultipartOutcome.Settled (out : MultipartOutcome) : Prop :=
  out.pending = none ∨ out.abortAttempted = true

/-- The store acts on the request, whether or not its answer arrives. -/
def WriteRequestFault.Acted (fault : WriteRequestFault) : Prop :=
  ∀ applied e, fault = some (applied, e) → applied = true

/-- The creation of the upload is answered with its id, unless the store makes none;
and when no part fails, the store completes it. -/
def UploadEnv.Settles (env : UploadEnv) (partsOk allowed : Prop) : Prop :=
  match env.createMultipartUpload with
  | some (applied, _) => applied = false
  | none => env.uploadId ≠ none ∧ (partsOk → allowed ∧ env.completeMultipartUpload.Acted)

section Multipart

variable {env : UploadEnv} {ifNoneMatch : Bool} {attrs : Attributes}
  {mapErr : GetError → UploadError} {before : Option ObjectContent} {out : MultipartOutcome}

/-- After its parts have all ended well, an upload is settled by its completion. -/
theorem settleMultipart_ok {stored : List (Nat × List UInt8)} {parts : List CompletedPart}
    {bytes : List UInt8} (hassemble : assembleParts env stored parts = .ok bytes) :
    (settleMultipart env ifNoneMatch attrs mapErr before stored (.ok parts)).Settled ↔
      (ifNoneMatch = false ∨ before = none) ∧ env.completeMultipartUpload.Acted := by
  simp only [settleMultipart, MultipartOutcome.Settled, hassemble, Except.bind, Bool.false_eq_true,
    or_false]
  by_cases hallow : ifNoneMatch = false ∨ before = none
  · rw [storeObject_allowed hallow, Except.map]
    rcases hfault : env.completeMultipartUpload with _ | ⟨applied, e⟩
    · simp [WriteRequestFault.send, WriteRequestFault.Acted, hallow]
    · cases applied <;> simp [WriteRequestFault.send, WriteRequestFault.Acted, hallow]
  · -- the store refuses it, so it stays
    have hrefuse : storeObject ifNoneMatch ⟨bytes, attrs⟩ before =
        .error preconditionFailedResponse := by
      rw [not_or] at hallow
      have hsome := Option.isSome_iff_ne_none.mpr hallow.2
      simp [storeObject, hallow.1, hsome]
    rw [hrefuse, Except.map]
    refine iff_of_false ?_ fun h => hallow h.1
    rcases env.completeMultipartUpload with _ | ⟨applied, e⟩
    · simp [WriteRequestFault.send]
    · cases applied <;> simp [WriteRequestFault.send]

/-- **A multipart upload is settled** just when what its environment does lets it be. -/
theorem runMultipart_settled
    {parts : Option (List (Nat × List UInt8) × Except StorageError (List CompletedPart))}
    {partsOk : Prop}
    (hparts : ∀ stored r, parts = some (stored, r) → ((∃ ps, r = .ok ps) ↔ partsOk) ∧
      ∀ ps, r = .ok ps → ∃ bytes, assembleParts env stored ps = .ok bytes)
    (h : runMultipart env ifNoneMatch attrs mapErr before parts = some out) :
    out.Settled ↔ env.Settles partsOk (ifNoneMatch = false ∨ before = none) := by
  unfold UploadEnv.Settles
  rcases hcreate : env.createMultipartUpload with _ | ⟨applied, e⟩
  · cases hid : env.uploadId with
    | none =>
      simp only [runMultipart, hcreate, WriteRequestFault.send, hid, Option.some.injEq] at h
      subst h
      simp [MultipartOutcome.Settled]
    | some id =>
      simp only [runMultipart, hcreate, WriteRequestFault.send, hid] at h
      obtain ⟨⟨stored, r⟩, hout, rfl⟩ := Option.map_eq_some_iff.mp h
      obtain ⟨hiff, hassemble⟩ := hparts stored r hout
      cases r with
      | error e =>
        have hnot : ¬ partsOk := fun hok => by
          obtain ⟨ps, hps⟩ := hiff.mpr hok
          cases hps
        exact iff_of_true (Or.inr rfl) ⟨Option.some_ne_none id, fun hok => absurd hok hnot⟩
      | ok ps =>
        obtain ⟨bytes, hbytes⟩ := hassemble ps rfl
        have hok := hiff.mp ⟨ps, rfl⟩
        simp only [settleMultipart_ok hbytes, ne_eq, reduceCtorEq, not_false_eq_true, true_and, hok,
          forall_true_left]
  · cases applied with
    | true =>
      simp only [runMultipart, hcreate, WriteRequestFault.send, Option.some.injEq] at h
      subst h
      simp [MultipartOutcome.Settled]
    | false =>
      simp only [runMultipart, hcreate, WriteRequestFault.send, Option.some.injEq] at h
      subst h
      simp [MultipartOutcome.Settled]

end Multipart

/-! ## The three uploads -/

theorem uploadMultipartRun_settled {opts : UploadOpts} {env : UploadEnv}
    {sched : List (Pool.Event Unit)} {data : List UInt8} {dst : Str} {metadata : Metadata}
    {before : Option ObjectContent} {out : MultipartOutcome}
    (h : uploadMultipartRun opts env sched data dst metadata before = some out) :
    out.Settled ↔ env.Settles
      (∀ i < uploadPartCount data.length opts.partSize, env.readFrom i = none ∧ env.uploadPart i = none)
      (metadata.ifNoneMatch = false ∨ before = none) := by
  refine runMultipart_settled ?_ h
  intro stored r hparts
  obtain ⟨hiff, hassemble⟩ := uploadParts_spec hparts
  exact ⟨hiff, fun ps hps => ⟨_, hassemble ps hps⟩⟩

theorem copyMultipart_settled {opts : CopyOpts} {env : CopyEnv} {sched : List (Pool.Event Unit)}
    {src : ObjectContent} {metadata : Metadata} {before : Option ObjectContent}
    {out : MultipartOutcome} (h : copyMultipart opts env sched src metadata before = some out) :
    out.Settled ↔ env.multipart.Settles
      (∀ i < uploadPartCount src.bytes.length (copyPartSize opts.partSize src.bytes.length),
        env.multipart.uploadPart i = none) True := by
  have hparts : ∀ stored r, copyParts opts env sched src.bytes = some (stored, r) →
      ((∃ ps, r = .ok ps) ↔ ∀ i < uploadPartCount src.bytes.length
        (copyPartSize opts.partSize src.bytes.length), env.multipart.uploadPart i = none) ∧
      ∀ ps, r = .ok ps → ∃ bytes, assembleParts env.multipart stored ps = .ok bytes := by
    intro stored r hparts
    obtain ⟨hiff, hassemble⟩ := uploadParts_spec hparts
    refine ⟨hiff.trans (forall₂_congr fun i _ => ?_), fun ps hps => ⟨_, hassemble ps hps⟩⟩
    exact and_iff_right rfl
  have hsettled := runMultipart_settled hparts h
  simpa using hsettled

theorem uploadPartsFromReader_spec {opts : UploadOpts} {env : PipeEnv} {sched : List (Pool.Event Unit)}
    {data : List UInt8} {stored : List (Nat × List UInt8)}
    {r : Except StorageError (List CompletedPart)}
    (h : uploadPartsFromReader opts env sched data = some (stored, r)) :
    ((∃ ps, r = .ok ps) ↔ ∀ i < nParts data.length opts.partSize,
      env.readPart (i + 1) = none ∧ env.multipart.uploadPart i = none) ∧
      ∀ ps, r = .ok ps → ∃ bytes, assembleParts env.multipart stored ps = .ok bytes := by
  have hnotOk : ∀ {e : StorageError} {P : Prop}, ¬ P →
      ((∃ ps : List CompletedPart, Except.error e = .ok ps) ↔ P) := by
    intro e P hP
    refine iff_of_false ?_ hP
    rintro ⟨ps, hps⟩
    cases hps
  unfold uploadPartsFromReader at h
  dsimp only at h
  split at h
  · -- a read failed
    rename_i k e hfault
    obtain ⟨p, -, h⟩ := Option.bind_eq_some_iff.mp h
    split at h
    · simp only [Option.some.injEq, Prod.mk.injEq] at h
      obtain ⟨-, rfl⟩ := h
      refine ⟨hnotOk fun hall => ?_, fun ps hps => nomatch hps⟩
      rw [PipeEnv.readFault_eq_none.mpr fun i hi => (hall i hi).1] at hfault
      cases hfault
    · cases h
  · rename_i hfault
    have hread := PipeEnv.readFault_eq_none.mp hfault
    obtain ⟨p, hrun, h⟩ := Option.bind_eq_some_iff.mp h
    rw [pipeTasks_eq] at hrun
    have hknows := fileTasks_knows hrun
    split at h
    · -- a part was found to have failed
      rename_i e hcollect
      split at h
      · simp only [Option.some.injEq, Prod.mk.injEq] at h
        obtain ⟨-, rfl⟩ := h
        refine ⟨hnotOk fun hall => ?_, fun ps hps => nomatch hps⟩
        have hvalues := results_values hknows fun t ht => (hknows t ht).2.mpr ⟨rfl, ?_⟩
        · rw [collectResults_eq_ok.mpr hvalues] at hcollect
          cases hcollect
        · exact (hall t.1 (Pool.lt_count_of_mem_results hrun ht)).2
      · cases h
    · rename_i parts hcollect
      split at h
      · rename_i hc
        simp only [Option.some.injEq, Prod.mk.injEq] at h
        obtain ⟨rfl, rfl⟩ := h
        obtain ⟨hiff, hassemble⟩ := collectResults_fileTasks hrun hc
        refine ⟨iff_of_true ⟨_, rfl⟩ fun i hi => ⟨hread i hi, ?_⟩, ?_⟩
        · exact (hiff.mp ⟨parts, hcollect⟩ i hi).2
        · intro ps hps
          obtain rfl := Except.ok.inj hps
          exact ⟨_, hassemble parts hcollect⟩
      · cases h

theorem pipeMultipartUpload_settled {opts : UploadOpts} {env : PipeEnv} {sched : List (Pool.Event Unit)}
    {data : List UInt8} {metadata : Metadata} {before : Option ObjectContent} {out : MultipartOutcome}
    (h : pipeMultipartUpload opts env sched data metadata before = some out) :
    out.Settled ↔ env.multipart.Settles
      (∀ i < nParts data.length opts.partSize,
        env.readPart (i + 1) = none ∧ env.multipart.uploadPart i = none) True := by
  have hsettled := runMultipart_settled (fun _ _ hparts => uploadPartsFromReader_spec hparts) h
  simpa using hsettled

/-! ## Client-side copies -/

/-- The download gets as far as creating its file. -/
def DownloadEnv.Opens (env : DownloadEnv) (opts : DownloadOpts) : Prop :=
  env.createDirAll = none ∧ env.openFile = none ∧
    match env.get (some (0, opts.partSize - 1)) with
    | .ok resp => resp.body.fails = none
    | .error e => isRangeNotSatisfiable e = true ∧ ∃ resp, env.get none = .ok resp

/-- Nothing fails after that. -/
def DownloadEnv.Finishes (env : DownloadEnv) (opts : DownloadOpts) : Prop :=
  match env.get (some (0, opts.partSize - 1)) with
  | .ok resp => env.setLen = none ∧ PartsSucceed opts env resp.total
  | .error _ => ∀ resp, env.get none = .ok resp → StreamsWell env resp.body.fails 0 resp.body.chunks

section Download

variable {opts : DownloadOpts} {env : DownloadEnv} {sched : List (Pool.Event (Nat × Int))}
  {out : DownloadOutcome}

theorem ok_iff_not_failed : out.result = .ok () ↔ ¬ out.failed := by
  unfold DownloadOutcome.failed
  cases out.result with
  | error e => simp
  | ok u => simp

/-- What follows the first response leaves a file, and fails when one of its steps
does. -/
theorem downloadParts_result {resp : GetResponse} {first : List UInt8}
    (h : downloadParts opts env sched resp first = some out) :
    (∃ f, out.file = some f) ∧
      (out.result = .ok () ↔ env.setLen = none ∧ PartsSucceed opts env resp.total) := by
  unfold downloadParts at h
  dsimp only at h
  split at h
  · rename_i e hset
    obtain rfl := Option.some.inj h
    exact ⟨⟨_, rfl⟩, iff_of_false nofun fun hall => by rw [hset] at hall; cases hall.1⟩
  · rename_i hset
    split at h
    · rename_i e hwrite
      obtain rfl := Option.some.inj h
      refine ⟨⟨_, rfl⟩, iff_of_false nofun fun hall => ?_⟩
      rw [hall.2.1] at hwrite
      cases hwrite
    · rename_i hwrite
      have hnone := WriteFault.eq_none_of_result hwrite
      split at h
      · rename_i hlt
        obtain ⟨res, hres, rfl⟩ := Option.map_eq_some_iff.mp h
        have hiff := downloadRemainingParts_result hres
        cases hr : res.2 with
        | error e =>
          refine ⟨⟨_, rfl⟩, iff_of_false nofun fun hall => ?_⟩
          have := hiff.mpr (hall.2.2 hlt)
          rw [hr] at this
          cases this
        | ok u => exact ⟨⟨_, rfl⟩, iff_of_true rfl ⟨hset, hnone, fun _ => hiff.mp hr⟩⟩
      · rename_i hge
        obtain rfl := Option.some.inj h
        exact ⟨⟨_, rfl⟩, iff_of_true rfl ⟨hset, hnone, fun hlt => absurd hlt hge⟩⟩

/-- **What a download into a new file leaves**: the file is there once it has been
opened, and the download succeeds when nothing fails after that. -/
theorem download_leaves (hdry : opts.dryRun = false) (h : download opts env sched none = some out) :
    ((∃ f, out.file = some f) ↔ env.Opens opts) ∧
      (out.result = .ok () ↔ env.Opens opts ∧ env.Finishes opts) := by
  rcases download_cases h with ⟨hfile, hdry' | hfailed⟩ |
    ⟨-, hdir, e, resp, hget, hrange, hwhole, hopen, rfl⟩ |
    ⟨-, hdir, resp, first, hget, hfirst, hopen, hparts⟩
  · rw [hdry] at hdry'
    cases hdry'
  · -- it failed before it opened the file
    have hnot : ¬ env.Opens opts := by
      rintro ⟨hdir, hopen, hfirst⟩
      cases hget : env.get (some (0, opts.partSize - 1)) with
      | ok resp =>
        rw [hget] at hfirst
        rw [download_of_parts hdry hdir hget (Body.collect_eq_ok.mpr ⟨hfirst, rfl⟩) hopen] at h
        obtain ⟨⟨f, hf⟩, -⟩ := downloadParts_result h
        rw [hf] at hfile
        cases hfile
      | error e =>
        rw [hget] at hfirst
        obtain ⟨hrange, resp, hwhole⟩ := hfirst
        rw [download_of_stream hdry hdir hget hrange hwhole hopen] at h
        obtain rfl := Option.some.inj h
        obtain ⟨⟨f, hf, -⟩, -⟩ := streamChunks_spec env resp.body.fails 0 resp.body.chunks
          (.truncated (env.clock 0))
        rw [hf] at hfile
        cases hfile
    refine ⟨iff_of_false ?_ hnot, iff_of_false ?_ fun hboth => hnot hboth.1⟩
    · rintro ⟨f, hf⟩
      rw [hf] at hfile
      cases hfile
    · exact fun hok => ok_iff_not_failed.mp hok hfailed
  · obtain ⟨⟨f, hf, -⟩, hfailed⟩ := streamChunks_spec env resp.body.fails 0 resp.body.chunks
      (.truncated (env.clock 0))
    have hopens : env.Opens opts := by
      refine ⟨hdir, hopen, ?_⟩
      rw [hget]
      exact ⟨hrange, resp, hwhole⟩
    refine ⟨iff_of_true ⟨f, hf⟩ hopens, ?_⟩
    rw [ok_iff_not_failed, hfailed, not_not, DownloadEnv.Finishes, hget]
    constructor
    · intro hwell
      refine ⟨hopens, fun resp' hresp' => ?_⟩
      obtain rfl := Except.ok.inj (hwhole.symm.trans hresp')
      exact hwell
    · exact fun hall => hall.2 resp hwhole
  · obtain ⟨hsome, hok⟩ := downloadParts_result hparts
    have hopens : env.Opens opts := by
      refine ⟨hdir, hopen, ?_⟩
      rw [hget]
      exact (Body.collect_eq_ok.mp hfirst).1
    refine ⟨iff_of_true hsome hopens, ?_⟩
    rw [hok, DownloadEnv.Finishes, hget]
    exact (and_iff_right hopens).symm

end Download

/-- A client-side copy leaves its temporary file when the download fails once it has
opened it, or when the removal after the upload fails. -/
theorem clientCopyTo_temp {srcOpts dstOpts : DownloadOpts} {env : ClientCopyEnv}
    {down : List (Pool.Event (Nat × Int))} {up : List (Pool.Event Unit)} {dst : Str}
    {metadata : Metadata} {before : Option ObjectContent} {out : ClientCopyOutcome}
    (h : clientCopyTo srcOpts dstOpts env down up dst metadata before = some out) :
    out.temp = none ↔ srcOpts.dryRun = true ∨ dstOpts.dryRun = true ∨
      (env.download.Opens srcOpts → env.download.Finishes srcOpts ∧ env.removeFile = none) := by
  unfold clientCopyTo at h
  split at h
  · rename_i hdry
    obtain rfl := Option.some.inj h
    refine iff_of_true rfl ?_
    rcases Bool.or_eq_true _ _ |>.mp hdry with hdry | hdry
    · exact Or.inl hdry
    · exact Or.inr (Or.inl hdry)
  · rename_i hdry
    obtain ⟨hsrc, hdst⟩ := Bool.or_eq_false_iff.mp (Bool.eq_false_iff.mpr hdry)
    obtain ⟨d, hd, h⟩ := Option.bind_eq_some_iff.mp h
    obtain ⟨hfile, hok⟩ := download_leaves hsrc hd
    rw [hsrc, hdst]
    simp only [Bool.false_eq_true, false_or]
    cases hres : d.result with
    | error e =>
      simp only [hres, Option.some.injEq] at h
      subst h
      have hfails : ¬ (env.download.Opens srcOpts ∧ env.download.Finishes srcOpts) := by
        rw [← hok, hres]
        exact nofun
      rw [← hfile] at hfails ⊢
      constructor
      · rintro hnone ⟨f, hf⟩
        rw [hf] at hnone
        cases hnone
      · intro hall
        by_contra hsome
        obtain ⟨f, hf⟩ := Option.ne_none_iff_exists'.mp hsome
        exact hfails ⟨⟨f, hf⟩, (hall ⟨f, hf⟩).1⟩
    | ok u =>
      simp only [hres] at h
      obtain ⟨w, -, rfl⟩ := Option.map_eq_some_iff.mp h
      obtain ⟨hopens, hfinishes⟩ := hok.mp hres
      obtain ⟨f, hf⟩ := hfile.mpr hopens
      simp only [hopens, hfinishes, hf, true_and, forall_const]
      cases env.removeFile with
      | none => simp
      | some e => simp

/-! ## All of them -/

/-- **What is left behind.** For every input, every outcome of every request, read,
write and task, and every schedule: a multipart upload that one of the three
functions creates is, when it returns, completed or asked to be aborted just when
its creation is answered with an id and, with all parts sent, the store completes
it; and a client-side copy leaves no temporary file just when its download does not
fail after creating it and its removal succeeds. -/
theorem transfers_leave_nothing_iff (metadata : Metadata) (before : Option ObjectContent) :
    (∀ (opts : UploadOpts) (env : UploadEnv) (sched : List (Pool.Event Unit)) (data : List UInt8)
      (dst : Str) (out : MultipartOutcome),
      uploadMultipartRun opts env sched data dst metadata before = some out →
      (out.Settled ↔ env.Settles (∀ i < uploadPartCount data.length opts.partSize,
        env.readFrom i = none ∧ env.uploadPart i = none)
        (metadata.ifNoneMatch = false ∨ before = none))) ∧
    (∀ (opts : CopyOpts) (env : CopyEnv) (sched : List (Pool.Event Unit)) (src : ObjectContent)
      (out : MultipartOutcome), copyMultipart opts env sched src metadata before = some out →
      (out.Settled ↔ env.multipart.Settles (∀ i < uploadPartCount src.bytes.length
        (copyPartSize opts.partSize src.bytes.length), env.multipart.uploadPart i = none) True)) ∧
    (∀ (opts : UploadOpts) (env : PipeEnv) (sched : List (Pool.Event Unit)) (data : List UInt8)
      (out : MultipartOutcome), pipeMultipartUpload opts env sched data metadata before = some out →
      (out.Settled ↔ env.multipart.Settles (∀ i < nParts data.length opts.partSize,
        env.readPart (i + 1) = none ∧ env.multipart.uploadPart i = none) True)) ∧
    (∀ (srcOpts dstOpts : DownloadOpts) (env : ClientCopyEnv) (down : List (Pool.Event (Nat × Int)))
      (up : List (Pool.Event Unit)) (dst : Str) (out : ClientCopyOutcome),
      clientCopyTo srcOpts dstOpts env down up dst metadata before = some out →
      (out.temp = none ↔ srcOpts.dryRun = true ∨ dstOpts.dryRun = true ∨
        (env.download.Opens srcOpts → env.download.Finishes srcOpts ∧ env.removeFile = none))) ∧
    (∀ (opts : DownloadOpts) (env : ClientCopyEnv) (down : List (Pool.Event (Nat × Int)))
      (up : List (Pool.Event Unit)) (dst : Str) (out : ClientCopyOutcome),
      clientCopy opts env down up dst metadata before = some out →
      (out.temp = none ↔ opts.dryRun = true ∨
        (env.download.Opens opts → env.download.Finishes opts ∧ env.removeFile = none))) := by
  refine ⟨?_, ?_, ?_, ?_, ?_⟩
  · intro opts env sched data dst out h
    exact uploadMultipartRun_settled h
  · intro opts env sched src out h
    exact copyMultipart_settled h
  · intro opts env sched data out h
    exact pipeMultipartUpload_settled h
  · intro srcOpts dstOpts env down up dst out h
    exact clientCopyTo_temp h
  · intro opts env down up dst out h
    have hiff := clientCopyTo_temp h
    rwa [← or_assoc, or_self] at hiff

/-- A client-side copy of one byte, without a fault. -/
theorem client_copy_leaves_nothing :
    ∃ out, clientCopy {} { download := { get := serveObject [7] } } [] [] [] {} none = some out ∧
      out.temp = none := by
  obtain ⟨out, hout⟩ := Option.isSome_iff_exists.mp (by decide +kernel :
    (clientCopy {} { download := { get := serveObject [7] } } [] [] [] {} none).isSome = true)
  refine ⟨out, hout, ?_⟩
  apply ((transfers_leave_nothing_iff {} none).2.2.2.2 _ _ _ _ _ _ hout).mpr
  refine Or.inr fun _ => ⟨⟨rfl, rfl, fun hlt => ?_⟩, rfl⟩
  exact absurd hlt (by decide +kernel)

/-- A conditional upload onto an object that is there: its parts are sent, the store
refuses to complete it, and it stays. -/
theorem uploadMultipartRun_refused (opts : UploadOpts) (data : List UInt8) (dst : Str)
    (object : ObjectContent) :
    ∃ sched out, uploadMultipartRun opts {} sched data dst { ifNoneMatch := true } (some object) =
        some out ∧ out.result = .error (.preconditionFailed dst) ∧ ¬ out.Settled := by
  obtain ⟨sched, ⟨stored, r⟩, hparts⟩ := exists_uploadParts opts {} data
  obtain ⟨hiff, hassemble⟩ := uploadParts_spec hparts
  obtain ⟨ps, rfl⟩ := hiff.mpr fun i _ => ⟨rfl, rfl⟩
  refine ⟨sched, settleMultipart {} true (Metadata.createAttributes { ifNoneMatch := true })
    (mapConditionalWriteError · dst) (some object) stored (.ok ps), ?_, ?_, ?_⟩
  · show Option.map _ (uploadParts opts {} sched data) = some _
    rw [hparts]
    rfl
  · simp only [settleMultipart, hassemble ps rfl]
    rfl
  · rw [settleMultipart_ok (hassemble ps rfl)]
    simp

/-- A file of 6 MiB is uploaded with `--if-none-match` and the object is there. No
request is lost, the upload returns that the object is there, and the multipart
upload that it has made is neither completed nor asked to be aborted. -/
theorem refused_upload_stays :
    ∃ sched out, uploadMultipartRun {} {} sched (List.replicate (6 * 1024 * 1024) 0) []
        { ifNoneMatch := true } (some ⟨[], {}⟩) = some out ∧
      out.result = .error (.preconditionFailed []) ∧ ¬ out.Settled :=
  uploadMultipartRun_refused {} (List.replicate (6 * 1024 * 1024) 0) [] ⟨[], {}⟩

end Rs5cmd
