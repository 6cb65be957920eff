import Rs5cmd.Storage.S3.DownloadContent
import Rs5cmd.Storage.S3.UploadSpec
import Rs5cmd.Theorems.Download

/-!
# Upload and download round trip

An upload followed by a download of the stored object gives back the file's
bytes: whatever the part sizes and the concurrency on each side, and in whatever
order the parts progress and end. With faults anywhere this is partial
correctness (two successes give equal bytes); without faults both succeed.
-/

namespace Rs5cmd

/-! ## A store without faults -/

/-- The store answers every GET of an object, and refuses a range that starts past
its end with HTTP 416. -/
structure AnswersRanges (obj : List UInt8)
    (get : Option (Nat × Nat) → Except GetError GetResponse) : Prop
    extends ServesRanges obj get where
  answered : ∀ a b, a < obj.length → ∃ resp, get (some (a, b)) = .ok resp ∧ resp.body.fails = none
  unsatisfiable : ∀ a b, obj.length ≤ a →
    ∃ e, get (some (a, b)) = .error e ∧ isRangeNotSatisfiable e = true
  answeredWhole : ∃ resp, get none = .ok resp ∧ resp.body.fails = none

theorem answersRanges_serveObject {obj : List UInt8} (h : obj.length < 2 ^ 63) :
    AnswersRanges obj (serveObject obj) where
  toServesRanges := servesRanges_serveObject h
  answered := by
    intro a b ha
    rw [serveObject, if_pos ha]
    exact ⟨_, rfl, rfl⟩
  unsatisfiable := by
    intro a b ha
    rw [serveObject, if_neg (by omega)]
    exact ⟨_, rfl, by decide⟩
  answeredWhole := ⟨_, rfl, rfl⟩

/-- Nothing that a download waits for on this side fails. -/
structure DownloadEnv.Faultless (env : DownloadEnv) : Prop where
  createDirAll : env.createDirAll = none
  openFile : env.openFile = none
  setLen : env.setLen = none
  write : ∀ i, env.write i = none
  join : ∀ i, env.join i = none
  flush : env.flush = none

/-! ## Downloads that succeed -/

section Download

variable {opts : DownloadOpts} {env : DownloadEnv} {obj : List UInt8}
  {sched : List (Pool.Event (Nat × Int))} {before : Option LocalFile} {out : DownloadOutcome}

/-- **A download that returns success has written the object's bytes**, under every
schedule of its parts. -/
theorem download_success (hdry : opts.dryRun = false) (hs : ServesRanges obj env.get)
    (h : download opts env sched before = some out) (hok : out.result = .ok ()) :
    ∃ f, out.file = some f ∧ f.bytes = obj := by
  obtain ⟨f, hf, ⟨-, hbytes⟩ | ⟨-, hbytes⟩⟩ := download_assembled hdry hs.versions h hok
  · exact ⟨f, hf, hbytes⟩
  · exact ⟨f, hf, by rw [hbytes, assembled_const]⟩

/-- **A download without a fault succeeds.** -/
theorem download_faultless (henv : env.Faultless) (hs : AnswersRanges obj env.get)
    (h : download opts env sched before = some out) : out.result = .ok () := by
  have hps := opts.le_partSize
  have hnot : ¬ out.failed → out.result = .ok () := by
    intro hn
    cases hr : out.result with
    | ok u => rfl
    | error e => exact absurd ⟨e, hr⟩ hn
  cases hdry : opts.dryRun with
  | true =>
    rw [download, if_pos hdry] at h
    obtain rfl := Option.some.inj h
    rfl
  | false =>
    by_cases hempty : obj.length = 0
    · -- an empty object is streamed
      obtain ⟨e, hget, hrange⟩ := hs.unsatisfiable 0 (opts.partSize - 1) (by omega)
      obtain ⟨resp, hwhole, hfails⟩ := hs.answeredWhole
      rw [download_of_stream hdry henv.createDirAll hget hrange hwhole henv.openFile] at h
      obtain rfl := Option.some.inj h
      apply hnot
      rw [(streamChunks_spec env resp.body.fails 0 resp.body.chunks _).2, not_not]
      exact ⟨fun j _ => henv.write _, hfails, henv.flush⟩
    · obtain ⟨resp, hget, hfails⟩ := hs.answered 0 (opts.partSize - 1) (by omega)
      have hfirst : resp.body.collect = .ok resp.body.chunks.flatten :=
        Body.collect_eq_ok.mpr ⟨hfails, rfl⟩
      rw [download_of_parts hdry henv.createDirAll hget hfirst henv.openFile] at h
      apply hnot
      rw [(downloadParts_spec hs.toServesRanges (hs.total_eq hget) (hs.first_length_le hget hfirst)
        henv.setLen h).2, not_not]
      refine ⟨henv.write 0, fun _ i _ hi => ?_⟩
      have hlt : (partRange obj.length opts.partSize i).1 < obj.length := by
        show i * opts.partSize < obj.length
        have hle := (Nat.le_div_iff_mul_le (by omega)).mp hi
        rw [Nat.succ_mul] at hle
        omega
      exact ⟨hs.answered _ _ hlt, henv.write i, henv.join i⟩

end Download

/-! ## The round trip -/

/-- **Upload, then download.** For a file of at most 5 TiB, any part sizes, any
concurrency and any schedules: if the upload and the download of what it stored
both return success, the downloaded file has the bytes of the uploaded one; and
if nothing fails, both return, and return success, under every schedule that runs
them to their end. -/
theorem upload_download_round_trip (up : UploadOpts) (down : DownloadOpts) (uenv : UploadEnv)
    (src : LocalFile) (dst : Str) (metadata : Metadata) (stored : Option ObjectContent)
    (target : Option LocalFile) (hup : up.dryRun = false) (hdown : down.dryRun = false)
    (hsize : src.bytes.length ≤ 5 * 2 ^ 40) :
    (∀ usched uout, upload up uenv usched src dst metadata stored = some uout →
      uout.result = .ok () → ∃ obj, uout.object = some obj ∧
        ∀ denv, ServesRanges obj.bytes denv.get → ∀ dsched dout,
          download down denv dsched target = some dout → dout.result = .ok () →
            ∃ f, dout.file = some f ∧ f.bytes = src.bytes) ∧
    (uenv.Faultless → (metadata.ifNoneMatch = false ∨ stored = none) →
      (∃ usched uout, upload up uenv usched src dst metadata stored = some uout) ∧
      ∀ usched uout, upload up uenv usched src dst metadata stored = some uout →
        uout.result = .ok () ∧ ∃ obj, uout.object = some obj ∧
          ∀ denv, denv.Faultless → AnswersRanges obj.bytes denv.get →
            (∃ dsched dout, download down denv dsched target = some dout) ∧
            ∀ dsched dout, download down denv dsched target = some dout →
              dout.result = .ok () ∧ ∃ f, dout.file = some f ∧ f.bytes = src.bytes) := by
  refine ⟨?_, ?_⟩
  · intro usched uout hupload hok
    refine ⟨_, upload_success hup hsize hupload hok, ?_⟩
    intro denv hserves dsched dout hdownload hdok
    exact download_success hdown hserves hdownload hdok
  · intro huenv hcond
    refine ⟨exists_upload up uenv src dst metadata stored, ?_⟩
    intro usched uout hupload
    have hok := upload_faultless huenv hsize hcond hupload
    refine ⟨hok, _, upload_success hup hsize hupload hok, ?_⟩
    intro denv hdenv hanswers
    refine ⟨exists_download down denv target, ?_⟩
    intro dsched dout hdownload
    have hdok := download_faultless hdenv hanswers hdownload
    exact ⟨hdok, download_success hdown hanswers.toServesRanges hdownload hdok⟩

/-- Six MiB sent in two parts of at most 5 MiB come back in two parts of another
size, fetched together. -/
theorem upload_download_round_trip_sample :
    ∃ usched uout obj dsched dout f,
      upload {} {} usched ⟨List.replicate (6 * 2 ^ 20) 7, 0⟩ [] {} none = some uout ∧
        uout.object = some obj ∧
        download { partSize := 5 * 2 ^ 20 + 1, concurrency := 2 } { get := serveObject obj.bytes }
          dsched none = some dout ∧
        dout.result = .ok () ∧ dout.file = some f ∧ f.bytes = List.replicate (6 * 2 ^ 20) 7 := by
  have hsize : (List.replicate (6 * 2 ^ 20) (7 : UInt8)).length ≤ 5 * 2 ^ 40 := by
    rw [List.length_replicate]
    omega
  have hfault : ({} : UploadEnv).Faultless :=
    ⟨rfl, rfl, rfl, rfl, rfl, by simp, fun _ => rfl, fun _ => rfl, rfl⟩
  obtain ⟨⟨usched, uout, hupload⟩, hall⟩ := (upload_download_round_trip {}
    { partSize := 5 * 2 ^ 20 + 1, concurrency := 2 } {} ⟨List.replicate (6 * 2 ^ 20) 7, 0⟩ [] {}
    none none rfl rfl hsize).2 hfault (.inl rfl)
  obtain ⟨hok, obj, hobj, hdown⟩ := hall usched uout hupload
  have hbytes : obj.bytes = List.replicate (6 * 2 ^ 20) 7 := by
    rw [upload_success rfl hsize hupload hok] at hobj
    rw [← Option.some.inj hobj]
  have hlt : obj.bytes.length < 2 ^ 63 := by
    rw [hbytes, List.length_replicate]
    omega
  obtain ⟨⟨dsched, dout, hdownload⟩, hdall⟩ := hdown { get := serveObject obj.bytes }
    ⟨rfl, rfl, rfl, fun _ => rfl, fun _ => rfl, rfl⟩ (answersRanges_serveObject hlt)
  obtain ⟨hdok, f, hf, hfbytes⟩ := hdall dsched dout hdownload
  exact ⟨usched, uout, obj, dsched, dout, f, hupload, hobj, hdownload, hdok, hf, hfbytes⟩

end Rs5cmd
