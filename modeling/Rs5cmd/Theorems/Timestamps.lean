import Rs5cmd.Theorems.RoundTrip

/-!
# `--preserve-timestamps`

An upload stores the modification time of the file as text among the metadata of the
object, and a download sets the time that the text names. The text names the time it was
made from. What answers the first ranged request of a download carries the text; the
request that an empty object is read with is not looked at for it.
-/

namespace Rs5cmd

/-! ## The text of a time -/

namespace Str

theorem parseDigits_replicate_zero {bound n : Nat} (k : Nat) (h : n < bound) :
    parseDigits bound (List.replicate k '0' ++ decimal n) = some n := by
  have hall : (List.replicate k '0' ++ decimal n).all Char.isDigit = true := by
    refine List.all_eq_true.mpr fun c hc => ?_
    rcases List.mem_append.mp hc with hc | hc
    · rw [List.eq_of_mem_replicate hc]
      decide
    · exact isDigit_of_mem_decimal hc
  have hne : (List.replicate k '0' ++ decimal n).isEmpty = false := by
    rw [List.isEmpty_eq_false_iff]
    exact fun hnil => Nat.toDigits_ne_nil (List.append_eq_nil_iff.mp hnil).2
  have hval : Nat.ofDigitChars 10 (List.replicate k '0' ++ decimal n) 0 = n := by
    rw [Nat.ofDigitChars_append, Nat.ofDigitChars_replicate_zero, Nat.mul_zero]
    exact Nat.ofDigitChars_ten_toDigits
  simp [parseDigits, hall, hne, hval, h]

/-- Digits have no sign in front. -/
theorem digits_ne_sign {s t : Str} {c : Char} (hs : ∀ d ∈ s, d.isDigit = true)
    (hc : c.isDigit = false) : s ≠ c :: t := by
  rintro rfl
  rw [hs c List.mem_cons_self] at hc
  cases hc

theorem parseI64_decimal {n : Nat} (h : n < 2 ^ 63) : parseI64 (decimal n) = some n := by
  have hdigits : ∀ d ∈ decimal n, d.isDigit = true := fun d hd => isDigit_of_mem_decimal hd
  unfold parseI64
  split
  · rename_i t ht
    exact absurd ht (digits_ne_sign hdigits (by decide))
  · rename_i t ht
    exact absurd ht (digits_ne_sign hdigits (by decide))
  · rw [parseDigits_decimal h]
    rfl

end Str

theorem parseUnsigned_padNanos {n : Nat} (h : n < 2 ^ 32) :
    Str.parseUnsigned 32 (padNanos n) = some n := by
  have hdigits : ∀ d ∈ padNanos n, d.isDigit = true := by
    intro d hd
    rcases List.mem_append.mp hd with hd | hd
    · rw [List.eq_of_mem_replicate hd]
      decide
    · exact Str.isDigit_of_mem_decimal hd
  unfold Str.parseUnsigned
  split
  · rename_i t ht
    exact absurd ht (Str.digits_ne_sign hdigits (by decide))
  · exact Str.parseDigits_replicate_zero _ h

/-- **The text of a time names it.** The seconds of a file's time fit into 63 bits. -/
theorem mtimeOfValue_fileMtimeValue {modTime : Int} (hepoch : 0 ≤ modTime)
    (hfits : modTime < 2 ^ 63 * 10 ^ 9) :
    ∃ v, fileMtimeValue modTime = some v ∧ mtimeOfValue v = some modTime := by
  obtain ⟨n, rfl⟩ := Int.eq_ofNat_of_zero_le hepoch
  have hsecs : n / 10 ^ 9 < 2 ^ 63 := Nat.div_lt_of_lt_mul (by omega)
  have hnanos : n % 10 ^ 9 < 2 ^ 32 := by
    have := Nat.mod_lt n (by decide : 0 < 10 ^ 9)
    omega
  have hdot : '.' ∉ Str.decimal (n / 10 ^ 9) := fun hmem =>
    absurd (Str.isDigit_of_mem_decimal hmem) (by decide)
  refine ⟨Str.decimal (n / 10 ^ 9) ++ '.' :: padNanos (n % 10 ^ 9), ?_, ?_⟩
  · rw [fileMtimeValue, if_neg (not_lt.mpr hepoch), Int.toNat_natCast]
  · have hsplit : ((n / 10 ^ 9 : Nat) : Int) * 10 ^ 9 + ((n % 10 ^ 9 : Nat) : Int) = (n : Int) := by
      have hdiv := Nat.div_add_mod n (10 ^ 9)
      omega
    rw [mtimeOfValue, Str.splitOnce_char_append hdot]
    simp only [Str.parseI64_decimal hsecs, parseUnsigned_padNanos hnanos, Option.getD_some]
    exact congrArg some hsplit

/-! ## The object that is stored -/

variable {up down : DownloadOpts} {modTime : Int} {metadata : Metadata}

/-- Both ways of sending a file send the text of its time. -/
theorem sentAttributes_mtime (hup : up.preserveTimestamps = true) {src : LocalFile} {v : Str}
    (hv : fileMtimeValue src.modTime = some v) (metadata : Metadata) :
    (sentAttributes up src metadata).userDefined[mtimeMetadataKey]? = some v := by
  have hmeta : uploadMetadata up src.modTime metadata =
      { metadata with userDefined := metadata.userDefined.insert mtimeMetadataKey v } := by
    rw [uploadMetadata, if_pos hup, hv]
  unfold sentAttributes
  rw [hmeta]
  split
  · exact Std.ExtTreeMap.getElem?_insert_self
  · exact Std.ExtTreeMap.getElem?_insert_self

/-- Each answer carries the metadata of the object. -/
def CarriesMetadata (obj : ObjectContent) (get : Option (Nat × Nat) → Except GetError GetResponse) :
    Prop :=
  ∀ range resp, get range = .ok resp → resp.mtime = obj.attrs.userDefined[mtimeMetadataKey]?

/-- A server that holds the object. -/
def serveStored (obj : ObjectContent) (range : Option (Nat × Nat)) : Except GetError GetResponse :=
  (serveObject obj.bytes range).map fun resp =>
    { resp with mtime := obj.attrs.userDefined[mtimeMetadataKey]? }

theorem serveStored_eq_ok {obj : ObjectContent} {range : Option (Nat × Nat)} {resp : GetResponse} :
    serveStored obj range = .ok resp ↔ ∃ plain, serveObject obj.bytes range = .ok plain ∧
      resp = { plain with mtime := obj.attrs.userDefined[mtimeMetadataKey]? } := by
  rw [serveStored]
  cases serveObject obj.bytes range with
  | error e => simp [Except.map]
  | ok plain => simp [Except.map, eq_comm]

theorem carriesMetadata_serveStored (obj : ObjectContent) : CarriesMetadata obj (serveStored obj) := by
  intro range resp hget
  obtain ⟨plain, -, rfl⟩ := serveStored_eq_ok.mp hget
  rfl

theorem answersRanges_serveStored {obj : ObjectContent} (h : obj.bytes.length < 2 ^ 63) :
    AnswersRanges obj.bytes (serveStored obj) := by
  have hplain := answersRanges_serveObject h
  refine ⟨⟨h, ?_, ?_⟩, ?_, ?_, ?_⟩
  · intro a b resp hget
    obtain ⟨plain, hp, rfl⟩ := serveStored_eq_ok.mp hget
    exact hplain.range a b plain hp
  · intro resp hget
    obtain ⟨plain, hp, rfl⟩ := serveStored_eq_ok.mp hget
    exact hplain.whole plain hp
  · intro a b ha
    obtain ⟨plain, hget, hfails⟩ := hplain.answered a b ha
    exact ⟨_, serveStored_eq_ok.mpr ⟨plain, hget, rfl⟩, hfails⟩
  · intro a b ha
    obtain ⟨e, hget, hrange⟩ := hplain.unsatisfiable a b ha
    exact ⟨e, by rw [serveStored, hget]; rfl, hrange⟩
  · obtain ⟨plain, hget, hfails⟩ := hplain.answeredWhole
    exact ⟨_, serveStored_eq_ok.mpr ⟨plain, hget, rfl⟩, hfails⟩

/-! ## The file that is written -/

section Download

variable {env : DownloadEnv} {obj : ObjectContent} {sched : List (Pool.Event (Nat × Int))}
  {before : Option LocalFile} {out : DownloadOutcome}

/-- What follows the first response ends with setting the time. -/
theorem downloadParts_restores {resp : GetResponse} {first : List UInt8}
    (h : downloadParts down env sched resp first = some out) (hok : out.result = .ok ()) :
    ∃ f, out.file = some (restoreMtime down env resp f) := by
  simp only [downloadParts] at h
  split at h
  · obtain rfl := Option.some.inj h
    cases hok
  · split at h
    · obtain rfl := Option.some.inj h
      cases hok
    · split at h
      · obtain ⟨res, -, rfl⟩ := Option.map_eq_some_iff.mp h
        cases hr : res.2 with
        | error e => simp [hr] at hok
        | ok u => exact ⟨res.1, rfl⟩
      · obtain rfl := Option.some.inj h
        exact ⟨_, rfl⟩

theorem restoreMtime_modTime (hdown : down.preserveTimestamps = true) {resp : GetResponse} {v : Str}
    (hresp : resp.mtime = some v) (hv : mtimeOfValue v = some modTime)
    (hset : env.setFileMtime = none) (f : LocalFile) :
    (restoreMtime down env resp f).modTime = modTime := by
  rw [restoreMtime, if_pos hdown, hresp, Option.bind_some, hv, hset]

/-- A download of an object that is not empty sets the time. -/
theorem download_restores (hdown : down.preserveTimestamps = true) (hdry : down.dryRun = false)
    (hne : obj.bytes ≠ []) (hs : AnswersRanges obj.bytes env.get) (hcarries : CarriesMetadata obj env.get)
    {v : Str} (hobj : obj.attrs.userDefined[mtimeMetadataKey]? = some v)
    (hv : mtimeOfValue v = some modTime) (hset : env.setFileMtime = none)
    (h : download down env sched before = some out) (hok : out.result = .ok ()) :
    ∃ f, out.file = some f ∧ f.modTime = modTime := by
  obtain ⟨resp₀, hget₀, -⟩ := hs.answered 0 (down.partSize - 1) (List.length_pos_iff.mpr hne)
  rcases download_cases h with ⟨-, hdry' | ⟨e, he⟩⟩ | ⟨-, -, e, resp, hget, -⟩ |
    ⟨-, -, resp, first, hget, -, -, hparts⟩
  · rw [hdry] at hdry'
    cases hdry'
  · rw [hok] at he
    cases he
  · rw [hget₀] at hget
    cases hget
  · obtain ⟨f, hf⟩ := downloadParts_restores hparts hok
    refine ⟨_, hf, restoreMtime_modTime hdown ?_ hv hset f⟩
    rw [hcarries _ resp hget, hobj]

/-- A download of an empty object leaves the time of the writing. -/
theorem download_empty (hdry : down.dryRun = false) (hempty : obj.bytes = []) (now : Int) :
    download down { get := serveStored obj, clock := fun _ => now } sched before =
      some ⟨some (.truncated now), .ok ()⟩ := by
  have hrange : serveStored obj (some (0, down.partSize - 1)) =
      .error { debug := "InvalidRange".toList, err := .msg "InvalidRange".toList } := by
    rw [serveStored, hempty]
    rfl
  have hwhole : serveStored obj none = .ok {
      contentRange := none, contentLength := some 0,
      mtime := obj.attrs.userDefined[mtimeMetadataKey]?, body := { chunks := [[]] } } := by
    rw [serveStored, hempty]
    rfl
  have hunsatisfiable : isRangeNotSatisfiable
      { debug := "InvalidRange".toList, err := .msg "InvalidRange".toList } = true := by decide
  let env : DownloadEnv := { get := serveStored obj, clock := fun _ => now }
  have hopens : env.openFile = none := rfl
  have hstream : download down env sched before = _ :=
    download_of_stream hdry rfl hrange hunsatisfiable hwhole hopens
  exact hstream

end Download

/-! ## The round trip -/

/-- **When a time survives.** A file whose time is not before the epoch, and which the store
has room for, is uploaded with its time: however the upload went that stored it, the
downloads of the object that preserve times all set the time of the file exactly if the
file is not empty. -/
theorem timestamps_round_trip_iff (up : UploadOpts) (down : DownloadOpts)
    (hup : up.preserveTimestamps = true) (hdown : down.preserveTimestamps = true)
    (hupdry : up.dryRun = false) (hdowndry : down.dryRun = false) (uenv : UploadEnv)
    (usched : List (Pool.Event Unit)) (src : LocalFile) (dst : Str) (metadata : Metadata)
    (stored : Option ObjectContent) (uout : UploadOutcome) (hepoch : 0 ≤ src.modTime)
    (hfits : src.modTime < 2 ^ 63 * 10 ^ 9) (hsize : src.bytes.length ≤ 5 * 2 ^ 40)
    (hupload : upload up uenv usched src dst metadata stored = some uout)
    (hok : uout.result = .ok ()) :
    ∃ obj, uout.object = some obj ∧
      ((∀ denv, AnswersRanges obj.bytes denv.get → CarriesMetadata obj denv.get →
          denv.setFileMtime = none → ∀ dsched target dout,
            download down denv dsched target = some dout → dout.result = .ok () →
              ∃ f, dout.file = some f ∧ f.modTime = src.modTime) ↔
        src.bytes ≠ []) := by
  obtain ⟨v, hv, hread⟩ := mtimeOfValue_fileMtimeValue hepoch hfits
  refine ⟨_, upload_success hupdry hsize hupload hok, ?_, ?_⟩
  · intro hall hempty
    -- the clock of the download stands at another time
    have hlen : src.bytes.length < 2 ^ 63 := by omega
    obtain ⟨f, hf, htime⟩ := hall
      { get := serveStored ⟨src.bytes, sentAttributes up src metadata⟩
        clock := fun _ => src.modTime + 1 }
      (answersRanges_serveStored hlen) (carriesMetadata_serveStored _) rfl [] none _
      (download_empty hdowndry hempty _) rfl
    obtain rfl := Option.some.inj hf
    have hlater : src.modTime + 1 = src.modTime := htime
    omega
  · intro hne denv hs hcarries hset dsched target dout hdownload hdok
    exact download_restores hdown hdowndry hne hs hcarries (sentAttributes_mtime hup hv metadata)
      hread hset hdownload hdok

namespace TimestampSample

/-- Six MiB, with the time of their last change. -/
def several : LocalFile := ⟨List.replicate (6 * 2 ^ 20) 7, 1592222400000000007⟩

theorem length_several : several.bytes.length = 6 * 2 ^ 20 := List.length_replicate

/-- Parts are fetched together, of another size than those the file is sent in. -/
def fetched : DownloadOpts :=
  { partSize := 5 * 2 ^ 20 + 1, concurrency := 2, preserveTimestamps := true }

/-- A file that goes up in two parts and comes back in two parts has its time. -/
theorem timestamps_round_trip_several :
    ∃ usched uout obj dsched dout f,
      upload { preserveTimestamps := true } {} usched several [] {} none = some uout ∧
        uout.object = some obj ∧
        download fetched { get := serveStored obj } dsched none = some dout ∧
        dout.result = .ok () ∧ dout.file = some f ∧ f.modTime = several.modTime := by
  have hsize : several.bytes.length ≤ 5 * 2 ^ 40 := by
    rw [length_several]
    decide
  have hne : several.bytes ≠ [] := by
    rw [← List.length_pos_iff, length_several]
    decide
  have huenv : ({} : UploadEnv).Faultless :=
    ⟨rfl, rfl, rfl, rfl, rfl, by simp, fun _ => rfl, fun _ => rfl, rfl⟩
  obtain ⟨usched, uout, hupload⟩ :=
    exists_upload { preserveTimestamps := true } {} several [] {} none
  have hok := upload_faultless huenv hsize (.inl rfl) hupload
  obtain ⟨obj, hstored, hiff⟩ := timestamps_round_trip_iff { preserveTimestamps := true } fetched
    rfl rfl rfl rfl {} usched several [] {} none uout (by decide) (by decide) hsize hupload hok
  have hlen : obj.bytes.length < 2 ^ 63 := by
    rw [upload_success rfl hsize hupload hok] at hstored
    rw [← Option.some.inj hstored, length_several]
    decide
  have hserves := answersRanges_serveStored hlen
  obtain ⟨dsched, dout, hdownload⟩ := exists_download fetched { get := serveStored obj } none
  have hdok := download_faultless ⟨rfl, rfl, rfl, fun _ => rfl, fun _ => rfl, rfl⟩ hserves hdownload
  obtain ⟨f, hfile, htime⟩ := hiff.mpr hne _ hserves (carriesMetadata_serveStored obj) rfl dsched
    none dout hdownload hdok
  exact ⟨usched, uout, obj, dsched, dout, f, hupload, hstored, hdownload, hdok, hfile, htime⟩

/-- A file of no bytes. -/
def marker : LocalFile := ⟨[], 1592222400000000007⟩

/-- An empty file comes back with the time of the download. -/
theorem timestamps_lost_empty :
    ∃ uout obj dout f,
      upload { preserveTimestamps := true } {} [] marker [] {} none = some uout ∧
        uout.result = .ok () ∧ uout.object = some obj ∧
        download { preserveTimestamps := true } { get := serveStored obj } [] none = some dout ∧
        dout.result = .ok () ∧ dout.file = some f ∧ f.modTime = 0 ∧ f.modTime ≠ marker.modTime :=
  ⟨_, _, _, _, rfl, rfl, rfl, download_empty rfl rfl 0, rfl, rfl, rfl, by decide⟩

end TimestampSample

end Rs5cmd
