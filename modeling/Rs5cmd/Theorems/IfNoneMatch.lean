import Rs5cmd.Command.CopyOne
import Rs5cmd.Lib.Machine
import Rs5cmd.Theorems.Leaks

/-!
# Conditional writes

With `--if-none-match` an object that is at the destination stays. Uploads send the
condition to the store, and so do client-side copies, which end in an upload. A
server-side copy looks whether the object is there first, and takes any failure of
that look for a no; its multipart variant, the placeholders of links and the fast
path know nothing of the condition.
-/

namespace Rs5cmd

/-! ## Requests that carry the condition -/

section Upload

variable {opts : UploadOpts} {env : UploadEnv} {sched : List (Pool.Event Unit)} {src : LocalFile}
  {dst : Str} {metadata : Metadata} {object : ObjectContent} {out : UploadOutcome}

/-- The outcome of a write that the store refuses: the object stays, there is an error,
and it is the refusal unless something else fails. -/
structure Refused (object : ObjectContent) (dst : Str) (quiet : Prop) (out : UploadOutcome) : Prop where
  object_eq : out.object = some object
  not_ok : out.result ≠ .ok ()
  skipped : quiet → out.result = .error (.preconditionFailed dst)

theorem Refused.of_error {quiet : Prop} {e : UploadError} (hobject : out.object = some object)
    (hresult : out.result = .error e) (hskip : quiet → e = .preconditionFailed dst) :
    Refused object dst quiet out where
  object_eq := hobject
  not_ok := by
    rw [hresult]
    intro hok
    cases hok
  skipped := fun hquiet => by rw [hresult, hskip hquiet]

theorem storeObject_refused (hcond : metadata.ifNoneMatch = true) (obj : ObjectContent) :
    storeObject metadata.ifNoneMatch obj (some object) = .error preconditionFailedResponse := by
  simp [storeObject, hcond]

/-- A request that the store refuses leaves its state. -/
theorem WriteRequestFault.send_error {σ : Type} (fault : WriteRequestFault) (s : σ) (e : GetError) :
    (fault.send s (.error e)).1 = s ∧ ∃ e', (fault.send s (.error e)).2 = .error e' ∧
      (fault = none → e' = e) := by
  rcases fault with _ | ⟨applied, e'⟩
  · exact ⟨rfl, e, rfl, fun _ => rfl⟩
  · cases applied with
    | true => exact ⟨rfl, e', rfl, nofun⟩
    | false => exact ⟨rfl, e', rfl, nofun⟩

theorem mapConditionalWriteError_refused :
    mapConditionalWriteError preconditionFailedResponse dst = .preconditionFailed dst := by
  have h : isPreconditionFailed preconditionFailedResponse = true := by decide +kernel
  simp [mapConditionalWriteError, h]

theorem uploadSingle_refused (hcond : metadata.ifNoneMatch = true) (data : List UInt8) :
    Refused object dst env.Faultless (uploadSingle env data dst metadata (some object)) := by
  cases hbody : singleBody env data with
  | error e =>
    simp only [uploadSingle, hbody]
    refine .of_error rfl rfl fun hquiet => ?_
    rw [singleBody_faultless hquiet] at hbody
    cases hbody
  | ok body =>
    simp only [uploadSingle, hbody, storeObject_refused hcond]
    obtain ⟨hsame, e, he, hquiet⟩ :=
      env.putObject.send_error (some object) preconditionFailedResponse
    rw [he]
    refine .of_error hsame rfl fun hfaultless => ?_
    rw [hquiet hfaultless.putObject]
    exact mapConditionalWriteError_refused

theorem uploadMultipart_refused (hcond : metadata.ifNoneMatch = true) {data : List UInt8}
    (h : uploadMultipart opts env sched data dst metadata (some object) = some out) :
    Refused object dst env.Faultless out := by
  unfold uploadMultipart at h
  dsimp only at h
  split at h
  · rename_i e hcreate
    obtain rfl := Option.some.inj h
    refine .of_error rfl rfl fun hquiet => ?_
    rw [hquiet.createMultipartUpload] at hcreate
    cases hcreate
  · split at h
    · rename_i hid
      obtain rfl := Option.some.inj h
      exact .of_error rfl rfl fun hquiet => absurd hid hquiet.uploadId
    · obtain ⟨⟨stored, r⟩, hparts, rfl⟩ := Option.map_eq_some_iff.mp h
      cases r with
      | error e =>
        refine .of_error rfl rfl fun hquiet => ?_
        obtain ⟨parts, hok⟩ := uploadParts_faultless hquiet.readFrom hquiet.uploadPart hparts
        cases hok
      | ok parts =>
        -- whatever the parts come to, their completion is refused
        have hhandled : ∃ e, ((assembleParts env stored parts).bind fun bytes =>
            (storeObject metadata.ifNoneMatch ⟨bytes, metadata.createAttributes⟩ (some object)).map
              fun obj => (obj, (none : Option (List (Nat × List UInt8))))) = .error e ∧
            ((∃ bytes, assembleParts env stored parts = .ok bytes) → e = preconditionFailedResponse) := by
          simp only [storeObject_refused hcond]
          cases assembleParts env stored parts with
          | error e =>
            refine ⟨e, rfl, ?_⟩
            rintro ⟨bytes, hbytes⟩
            cases hbytes
          | ok bytes => exact ⟨_, rfl, fun _ => rfl⟩
        obtain ⟨e, he, hassembled⟩ := hhandled
        obtain ⟨hsame, e', he', hquiet⟩ :=
          env.completeMultipartUpload.send_error (some object, some stored) e
        simp only [finishMultipart, he, he']
        refine .of_error (congrArg Prod.fst hsame) rfl fun hfaultless => ?_
        rw [hquiet hfaultless.completeMultipartUpload,
          hassembled ⟨_, (uploadParts_spec hparts).2 parts rfl⟩]
        exact mapConditionalWriteError_refused

/-- **A conditional upload onto an object that is there** leaves it, on both ways. -/
theorem upload_refused (hdry : opts.dryRun = false) (hcond : metadata.ifNoneMatch = true)
    (h : upload opts env sched src dst metadata (some object) = some out) :
    Refused object dst env.Faultless out := by
  have hcond' : (uploadMetadata opts src.modTime metadata).ifNoneMatch = true := by
    rwa [uploadMetadata_ifNoneMatch]
  unfold upload at h
  rw [if_neg (by simp [hdry])] at h
  split at h
  · rename_i e hmeta
    obtain rfl := Option.some.inj h
    refine .of_error rfl rfl fun hquiet => ?_
    rw [hquiet.metadata] at hmeta
    cases hmeta
  · dsimp only at h
    split at h
    · obtain rfl := Option.some.inj h
      exact uploadSingle_refused hcond' src.bytes
    · exact uploadMultipart_refused hcond' h

end Upload

/-! ## Copies -/

theorem clientCopyMetadata_ifNoneMatch (env : ClientCopyEnv) (metadata : Metadata) :
    (clientCopyMetadata env metadata).ifNoneMatch = metadata.ifNoneMatch := by
  unfold clientCopyMetadata
  split <;> rfl

/-- Nothing that a client-side copy waits for fails. -/
def ClientCopyEnv.Quiet (opts : DownloadOpts) (env : ClientCopyEnv) : Prop :=
  env.download.Opens opts ∧ env.download.Finishes opts ∧ env.upload.Faultless

theorem clientCopyTo_refused {opts : DownloadOpts} {env : ClientCopyEnv}
    {down : List (Pool.Event (Nat × Int))} {up : List (Pool.Event Unit)} {dst : Str}
    {metadata : Metadata} {object : ObjectContent} {out : ClientCopyOutcome}
    (hdry : opts.dryRun = false) (hcond : metadata.ifNoneMatch = true)
    (h : clientCopyTo opts opts env down up dst metadata (some object) = some out) :
    Refused object dst (env.Quiet opts) out.toUploadOutcome := by
  unfold clientCopyTo at h
  rw [if_neg (by simp [hdry])] at h
  obtain ⟨d, hd, h⟩ := Option.bind_eq_some_iff.mp h
  cases hres : d.result with
  | error e =>
    simp only [hres, Option.some.injEq] at h
    subst h
    refine .of_error rfl rfl fun hquiet => ?_
    have hok := (download_leaves hdry hd).2.mpr ⟨hquiet.1, hquiet.2.1⟩
    rw [hres] at hok
    cases hok
  | ok u =>
    simp only [hres] at h
    obtain ⟨w, hw, rfl⟩ := Option.map_eq_some_iff.mp h
    have hrefused := upload_refused hdry ((clientCopyMetadata_ifNoneMatch env metadata).trans hcond) hw
    exact ⟨hrefused.object_eq, hrefused.not_ok, fun hquiet => hrefused.skipped hquiet.2.2⟩

section Copy

variable {opts : CopyOpts} {env : CopyEnv} {sched : List (Pool.Event Unit)} {src object : ObjectContent}
  {dst : Str} {metadata : Metadata} {before : Option ObjectContent} {out : MultipartOutcome}

/-- The look at the destination comes first and is answered, and what it finds is not
taken for a source that is too large. -/
structure CopyGuarded (opts : CopyOpts) (env : CopyEnv) (src : ObjectContent) (dst : Str) : Prop where
  single : opts.multipartCopyThreshold < defaultMultipartCopyThreshold →
    src.bytes.length ≤ opts.multipartCopyThreshold
  headDst : env.headDst = none
  notTooLarge : isCopySourceTooLarge (.preconditionFailed dst) = false

theorem copyObjectSingle_refused (hcond : metadata.ifNoneMatch = true) (hhead : env.headDst = none) :
    copyObjectSingle env src dst metadata (some object) =
      { object := some object, result := .error (.preconditionFailed dst) } := by
  simp [copyObjectSingle, hcond, hhead]

theorem copyObject_refused (hdry : opts.dryRun = false) (hcond : metadata.ifNoneMatch = true)
    (hguard : CopyGuarded opts env src dst)
    (h : copyObject opts env sched src dst metadata (some object) = some out) :
    Refused object dst (env.headSize = none) out.toUploadOutcome := by
  unfold copyObject at h
  rw [if_neg (by simp [hdry])] at h
  simp only [copyObjectSingle_refused hcond hguard.headDst, hguard.notTooLarge, Bool.false_eq_true,
    if_false] at h
  have hsingle : Refused object dst (env.headSize = none)
      { object := some object, result := .error (.preconditionFailed dst) } :=
    .of_error rfl rfl fun _ => rfl
  split at h
  · rename_i hlow
    split at h
    · rename_i e he
      obtain rfl := Option.some.inj h
      refine .of_error rfl rfl fun hquiet => ?_
      rw [hquiet] at he
      cases he
    · rw [if_neg (Nat.not_lt.mpr (hguard.single hlow))] at h
      obtain rfl := Option.some.inj h
      exact hsingle
  · obtain rfl := Option.some.inj h
    exact hsingle

/-- An error that is not a skip. -/
def NotSkipped (r : Except UploadError Unit) : Prop := ∀ url, r ≠ .error (.preconditionFailed url)

theorem notSkipped_mapError (r : Except GetError Unit) :
    NotSkipped (r.mapError fun e => .storage e.err) := by
  intro url
  cases r with
  | ok u => exact nofun
  | error e => exact nofun

/-- The multipart variant of a copy does not know the condition. -/
theorem copyMultipart_notSkipped (h : copyMultipart opts env sched src metadata before = some out) :
    NotSkipped out.result := by
  unfold copyMultipart runMultipart at h
  dsimp only at h
  split at h
  · obtain rfl := Option.some.inj h
    exact fun _ => nofun
  · split at h
    · obtain rfl := Option.some.inj h
      exact fun _ => nofun
    · obtain ⟨⟨stored, r⟩, -, rfl⟩ := Option.map_eq_some_iff.mp h
      cases r with
      | error e => exact fun _ => nofun
      | ok parts => exact notSkipped_mapError _

/-- The common path of `copy`: one CopyObject, and the multipart variant for a source that
is too large for it. -/
def copyOrFallBack (opts : CopyOpts) (env : CopyEnv) (sched : List (Pool.Event Unit))
    (src : ObjectContent) (metadata : Metadata) (single : UploadOutcome) : Option MultipartOutcome :=
  match single.result with
  | .ok () => some { toUploadOutcome := single }
  | .error e =>
    if isCopySourceTooLarge e then
      match env.headSizeAgain with
      | some e => some { object := single.object, result := .error (.storage e) }
      | none => copyMultipart opts env sched src metadata single.object
    else some { toUploadOutcome := single }

theorem copyObject_eq : copyObject opts env sched src dst metadata before =
    if opts.dryRun then some { object := before, result := .ok () }
    else if opts.multipartCopyThreshold < defaultMultipartCopyThreshold then
      match env.headSize with
      | some e => some { object := before, result := .error (.storage e) }
      | none =>
        if opts.multipartCopyThreshold < src.bytes.length then
          copyMultipart opts env sched src metadata before
        else copyOrFallBack opts env sched src metadata (copyObjectSingle env src dst metadata before)
    else copyOrFallBack opts env sched src metadata (copyObjectSingle env src dst metadata before) :=
  rfl

/-- Only the look at the destination makes it a skip. -/
theorem copyObjectSingle_skipped (h : ¬ NotSkipped (copyObjectSingle env src dst metadata before).result) :
    env.headDst = none ∧
      (copyObjectSingle env src dst metadata before).result = .error (.preconditionFailed dst) := by
  unfold copyObjectSingle at h ⊢
  split
  · rename_i hif
    simp only [Bool.and_eq_true, Option.isNone_iff_eq_none] at hif
    exact ⟨hif.2.1, rfl⟩
  · rename_i hif
    rw [if_neg hif] at h
    exact absurd (notSkipped_mapError _) h

theorem copyOrFallBack_skipped
    (h : copyOrFallBack opts env sched src metadata (copyObjectSingle env src dst metadata before) =
      some out) (hskip : ¬ NotSkipped out.result) :
    env.headDst = none ∧ isCopySourceTooLarge (.preconditionFailed dst) = false := by
  unfold copyOrFallBack at h
  split at h
  · rename_i hres
    obtain rfl := Option.some.inj h
    exact absurd (fun url hurl => by rw [hres] at hurl; cases hurl) hskip
  · rename_i e hres
    split at h
    · split at h
      · obtain rfl := Option.some.inj h
        exact absurd (fun _ => nofun) hskip
      · exact absurd (copyMultipart_notSkipped h) hskip
    · rename_i hlarge
      obtain rfl := Option.some.inj h
      obtain ⟨hhead, herr⟩ := copyObjectSingle_skipped hskip
      obtain rfl := Except.error.inj (hres.symm.trans herr)
      exact ⟨hhead, Bool.eq_false_iff.mpr hlarge⟩

/-- **A server-side copy is skipped only when it is guarded.** -/
theorem copyGuarded_of_skipped (h : copyObject opts env sched src dst metadata before = some out)
    (hskip : ¬ NotSkipped out.result) : opts.dryRun = false ∧ CopyGuarded opts env src dst := by
  rw [copyObject_eq] at h
  split at h
  · obtain rfl := Option.some.inj h
    exact absurd (fun _ => nofun) hskip
  · rename_i hdry
    refine ⟨Bool.eq_false_iff.mpr hdry, ?_⟩
    split at h
    · split at h
      · obtain rfl := Option.some.inj h
        exact absurd (fun _ => nofun) hskip
      · split at h
        · exact absurd (copyMultipart_notSkipped h) hskip
        · rename_i hle
          obtain ⟨hhead, hlarge⟩ := copyOrFallBack_skipped h hskip
          exact ⟨fun _ => Nat.le_of_not_lt hle, hhead, hlarge⟩
    · rename_i hhigh
      obtain ⟨hhead, hlarge⟩ := copyOrFallBack_skipped h hskip
      exact ⟨fun hlow => absurd hlow hhigh, hhead, hlarge⟩

end Copy

/-! ## One pair -/

/-- The write of the pair depends on the object not being there. -/
structure CopyOneOpts.Guards (opts : CopyOneOpts) (pair : CpPair) : Prop where
  notDry : opts.dryRun = false
  noLink : opts.storesLink pair.env pair.src = false
  copy : pair.src.isRemote = true → opts.sidesDiffer = false → opts.clientCopy = false →
    CopyGuarded opts.toCopyOpts pair.env.copy pair.env.source pair.dst.absolute

/-- Nothing fails that a transfer under the condition waits for. -/
structure CpPair.Quiet (opts : CopyOneOpts) (pair : CpPair) : Prop where
  upload : pair.env.upload.Faultless
  clientCopy : pair.env.clientCopy.Quiet opts.toDownloadOpts
  headSize : pair.env.copy.headSize = none

section Pair

variable {opts : CopyOneOpts} {metadata : Metadata} {pair : CpPair} {object : ObjectContent}
  {before : Option ObjectContent} {out : UploadOutcome}

theorem Refused.mono {dst : Str} {quiet quiet' : Prop} (h : Refused object dst quiet out)
    (himp : quiet' → quiet) : Refused object dst quiet' out :=
  ⟨h.object_eq, h.not_ok, fun hq => h.skipped (himp hq)⟩

theorem transferOne_refused (hcond : metadata.ifNoneMatch = true) (hguard : opts.Guards pair)
    (h : transferOne opts metadata pair.env pair.src pair.dst (some object) = some out) :
    Refused object pair.dst.absolute (pair.Quiet opts) out := by
  have hdry : opts.dryRun = false := hguard.notDry
  unfold transferOne at h
  split at h
  · rename_i hremote
    split at h
    · obtain ⟨c, hc, rfl⟩ := Option.map_eq_some_iff.mp h
      exact (clientCopyTo_refused hdry hcond hc).mono fun hq => hq.clientCopy
    · rename_i hsides
      split at h
      · obtain ⟨c, hc, rfl⟩ := Option.map_eq_some_iff.mp h
        exact (clientCopyTo_refused hdry hcond hc).mono fun hq => hq.clientCopy
      · rename_i hclient
        obtain ⟨c, hc, rfl⟩ := Option.map_eq_some_iff.mp h
        have hcopy := hguard.copy hremote (Bool.eq_false_iff.mpr hsides) (Bool.eq_false_iff.mpr hclient)
        exact (copyObject_refused hdry hcond hcopy hc).mono fun hq => hq.headSize
  · rename_i hlocal
    split at h
    · rename_i target hlinks hlink
      have hno := hguard.noLink
      simp [CopyOneOpts.storesLink, hlinks, hlink, hlocal] at hno
    · exact (upload_refused hdry hcond h).mono fun hq => hq.upload

theorem upload_skipped {opts : UploadOpts} {env : UploadEnv} {sched : List (Pool.Event Unit)}
    {src : LocalFile} {dst : Str} (h : upload opts env sched src dst metadata before = some out)
    (hskip : ¬ NotSkipped out.result) : opts.dryRun = false := by
  unfold upload at h
  split at h
  · obtain rfl := Option.some.inj h
    exact absurd (fun _ => nofun) hskip
  · rename_i hdry
    exact Bool.eq_false_iff.mpr hdry

theorem clientCopyTo_skipped {opts : DownloadOpts} {env : ClientCopyEnv}
    {down : List (Pool.Event (Nat × Int))} {up : List (Pool.Event Unit)} {dst : Str}
    {out : ClientCopyOutcome} (h : clientCopyTo opts opts env down up dst metadata before = some out)
    (hskip : ¬ NotSkipped out.result) : opts.dryRun = false := by
  unfold clientCopyTo at h
  split at h
  · obtain rfl := Option.some.inj h
    exact absurd (fun _ => nofun) hskip
  · rename_i hdry
    rw [Bool.or_self] at hdry
    exact Bool.eq_false_iff.mpr hdry

/-- **A pair is skipped only when its write is guarded.** -/
theorem guards_of_skipped
    (h : transferOne opts metadata pair.env pair.src pair.dst before = some out)
    (hskip : ¬ NotSkipped out.result) : opts.Guards pair := by
  unfold transferOne at h
  split at h
  · rename_i hremote
    have hlink : opts.storesLink pair.env pair.src = false := by
      simp [CopyOneOpts.storesLink, hremote]
    split at h
    · rename_i hsides
      obtain ⟨c, hc, rfl⟩ := Option.map_eq_some_iff.mp h
      exact ⟨clientCopyTo_skipped hc hskip, hlink, fun _ hno => by rw [hsides] at hno; cases hno⟩
    · split at h
      · rename_i hclient
        obtain ⟨c, hc, rfl⟩ := Option.map_eq_some_iff.mp h
        exact ⟨clientCopyTo_skipped hc hskip, hlink, fun _ _ hno => by rw [hclient] at hno; cases hno⟩
      · obtain ⟨c, hc, rfl⟩ := Option.map_eq_some_iff.mp h
        obtain ⟨hdry, hcopy⟩ := copyGuarded_of_skipped hc hskip
        exact ⟨hdry, hlink, fun _ _ _ => hcopy⟩
  · rename_i hlocal
    split at h
    · obtain rfl := Option.some.inj h
      refine absurd ?_ hskip
      unfold uploadSymlink
      split
      · exact fun _ => nofun
      · split
        · exact fun _ => nofun
        · exact notSkipped_mapError _
    · rename_i hnot
      refine ⟨upload_skipped h hskip, ?_, fun hremote => absurd hremote hlocal⟩
      cases hlinks : opts.links with
      | false => simp [CopyOneOpts.storesLink, hlinks]
      | true =>
        cases hlink : pair.env.readLink with
        | none => simp [CopyOneOpts.storesLink, hlink]
        | some target => exact absurd hlink (hnot target hlinks)

/-- What follows a transfer is not a skip. -/
theorem removeSource_notSkipped (env : CopyOneEnv) (src : Url) (st : Stores) :
    NotSkipped (removeSource opts env src st).result := by
  unfold removeSource
  split
  · exact fun _ => nofun
  · split
    · exact notSkipped_mapError _
    · split
      · exact fun _ => nofun
      · exact fun _ => nofun

end Pair

/-! ## A run -/

/-- The object is as it was, and no pair for its key is reported as copied or has lost its
source. -/
structure CpState.Spares (key : Str × Str) (object : ObjectContent) (s : CpState) : Prop where
  object_eq : s.stores .destination key = some object
  reports : ∀ r ∈ s.reports, r.target = key → r.removed = false ∧ r.result ≠ .done

/-- The pairs for the key are reported as skipped. -/
def CpState.Skips (key : Str × Str) (s : CpState) : Prop :=
  ∀ r ∈ s.reports, r.target = key → r.result = .skipped

/-- The fast path is not used, and every write to the key is guarded. -/
structure CpOpts.Careful (opts : CpOpts) (key : Str × Str) (pairs : List CpPair) : Prop where
  slow : opts.fast = none
  guards : ∀ pair ∈ pairs, opts.written pair = key → opts.toCopyOneOpts.Guards pair

/-- `mv` does not take the object away for another pair. -/
def CpOpts.LeavesSource (opts : CpOpts) (key : Str × Str) (pair : CpPair) : Prop :=
  opts.isMove = true → opts.sidesDiffer = false → pair.src.isRemote = true →
    opts.written pair ≠ key → pair.src.key ≠ key

section Run

variable {opts : CpOpts} {key : Str × Str} {object : ObjectContent} {pair : CpPair} {s s' : CpState}

@[simp] theorem Stores.set_same (st : Stores) (side : Side) (key : Str × Str)
    (obj : Option ObjectContent) : st.set side key obj side key = obj := by
  simp [Stores.set]

theorem Stores.set_other (st : Stores) {side side' : Side} {key key' : Str × Str}
    (obj : Option ObjectContent) (h : side' ≠ side ∨ key' ≠ key) :
    st.set side key obj side' key' = st side' key' := by
  by_cases hside : side' = side
  · subst hside
    have hkey : key' ≠ key := h.resolve_left fun hne => hne rfl
    simp [Stores.set, hkey]
  · simp [Stores.set, hside]

theorem removeSource_leaves {opts : CopyOneOpts} {env : CopyOneEnv} {src : Url} (st : Stores)
    (h : opts.isMove = true → opts.sidesDiffer = false → src.isRemote = true → src.key ≠ key) :
    (removeSource opts env src st).stores .destination key = st .destination key := by
  unfold removeSource
  split
  · rfl
  · rename_i hmove
    simp only [Bool.or_eq_true, Bool.not_eq_true', not_or, Bool.not_eq_true, Bool.not_eq_false] at hmove
    split
    · rename_i hremote
      refine Stores.set_other st _ ?_
      unfold CopyOneOpts.sourceSide
      cases hsides : opts.sidesDiffer with
      | true => exact Or.inl (by simp)
      | false => exact Or.inr (h hmove.1 hsides hremote).symm
    · split
      · rfl
      · rfl

/-- A pair for another key leaves the object. -/
theorem copyOne_other {out : CopyOneOutcome} (hslow : opts.fast = none)
    (hsource : opts.LeavesSource key pair) (hother : opts.written pair ≠ key)
    (h : opts.transfer pair s.stores = some out) :
    out.stores .destination key = s.stores .destination key := by
  simp only [CpOpts.transfer, hslow] at h
  simp only [CpOpts.LeavesSource, CpOpts.written, hslow] at hsource hother
  obtain ⟨u, -, rfl⟩ := Option.map_eq_some_iff.mp h
  dsimp only
  split
  · dsimp only
    exact Stores.set_other s.stores _ (Or.inr hother.symm)
  · rw [removeSource_leaves _ fun hm hsd hr => hsource hm hsd hr hother]
    exact Stores.set_other s.stores _ (Or.inr hother.symm)

/-- A guarded pair for the key leaves the object, and its source. -/
theorem copyOne_refused {out : CopyOneOutcome} (hcond : opts.metadata.ifNoneMatch = true)
    (hslow : opts.fast = none) (hguard : opts.toCopyOneOpts.Guards pair)
    (hobject : s.stores .destination (opts.written pair) = some object)
    (h : opts.transfer pair s.stores = some out) :
    out.stores .destination (opts.written pair) = some object ∧ out.removed = false ∧
      out.result ≠ .ok () ∧
      (pair.Quiet opts.toCopyOneOpts → out.result = .error (.preconditionFailed pair.dst.absolute)) := by
  simp only [CpOpts.transfer, hslow] at h
  simp only [CpOpts.written, hslow] at hobject ⊢
  obtain ⟨u, hu, rfl⟩ := Option.map_eq_some_iff.mp h
  rw [hobject] at hu
  have hrefused := transferOne_refused hcond hguard hu
  dsimp only
  split
  · rename_i e he
    refine ⟨?_, rfl, nofun, fun hquiet => ?_⟩
    · dsimp only
      rw [Stores.set_same]
      exact hrefused.object_eq
    · have hskip := hrefused.skipped hquiet
      rw [he] at hskip
      exact hskip
  · rename_i hok
    exact absurd hok hrefused.not_ok

theorem ofResult_ne_done {r : Except UploadError Unit} (h : r ≠ .ok ()) :
    TransferResult.ofResult r ≠ .done := by
  rcases r with (url | e) | u
  · exact nofun
  · exact nofun
  · exact absurd rfl h

theorem step_spares (hcond : opts.metadata.ifNoneMatch = true) (hslow : opts.fast = none)
    (hguard : opts.written pair = key → opts.toCopyOneOpts.Guards pair)
    (hsource : opts.LeavesSource key pair) (h : s.step opts pair = some s')
    (hs : s.Spares key object) :
    s'.Spares key object ∧ (pair.Quiet opts.toCopyOneOpts → s.Skips key → s'.Skips key) := by
  obtain ⟨out, hout, rfl⟩ := Option.map_eq_some_iff.mp h
  by_cases hkey : opts.written pair = key
  · subst hkey
    obtain ⟨hobject, hremoved, hnot, hskipped⟩ :=
      copyOne_refused hcond hslow (hguard rfl) hs.object_eq hout
    refine ⟨⟨hobject, fun r hr htarget => ?_⟩, fun hquiet hskips r hr htarget => ?_⟩
    · rcases List.mem_append.mp hr with hr | hr
      · exact hs.reports r hr htarget
      · obtain rfl := List.mem_singleton.mp hr
        exact ⟨hremoved, ofResult_ne_done hnot⟩
    · rcases List.mem_append.mp hr with hr | hr
      · exact hskips r hr htarget
      · obtain rfl := List.mem_singleton.mp hr
        exact congrArg TransferResult.ofResult (hskipped hquiet)
  · have hobject := copyOne_other hslow hsource hkey hout
    refine ⟨⟨hobject.trans hs.object_eq, fun r hr htarget => ?_⟩, fun _ hskips r hr htarget => ?_⟩
    · rcases List.mem_append.mp hr with hr | hr
      · exact hs.reports r hr htarget
      · obtain rfl := List.mem_singleton.mp hr
        exact absurd htarget hkey
    · rcases List.mem_append.mp hr with hr | hr
      · exact hskips r hr htarget
      · obtain rfl := List.mem_singleton.mp hr
        exact absurd htarget hkey

/-! ### Skips are guarded -/

theorem notSkipped_storage (r : Except StorageError Unit) : NotSkipped (r.mapError .storage) := by
  intro url
  cases r with
  | ok u => exact nofun
  | error e => exact nofun

/-- The fast path knows no skips. -/
theorem doOne_notSkipped (e : FastEngine) (isMove : Bool) (env : CopyOneEnv) (src dst : Url)
    (st : Stores) : NotSkipped (doOne e isMove env src dst st).result := by
  unfold doOne
  split
  · dsimp only
    split
    · exact fun _ => nofun
    · split
      · exact notSkipped_storage _
      · exact fun _ => nofun
  · split
    · exact fun _ => nofun
    · dsimp only
      split
      · exact fun _ => nofun
      · split
        · split
          · exact fun _ => nofun
          · exact fun _ => nofun
        · exact fun _ => nofun

theorem not_notSkipped_of_skipped {r : Except UploadError Unit}
    (h : TransferResult.ofResult r = .skipped) : ¬ NotSkipped r := by
  intro hnot
  rcases r with (url | e) | u
  · exact hnot url rfl
  · cases h
  · cases h

/-- A pair is reported as skipped only when its write is guarded. -/
theorem guards_of_report (h : s.step opts pair = some s') :
    ∃ r, s'.reports = s.reports ++ [r] ∧ r.target = opts.written pair ∧
      (r.result = .skipped → opts.fast = none ∧ opts.toCopyOneOpts.Guards pair) := by
  obtain ⟨out, hout, rfl⟩ := Option.map_eq_some_iff.mp h
  refine ⟨_, rfl, rfl, fun hskip => ?_⟩
  have hskip' := not_notSkipped_of_skipped hskip
  cases hfast : opts.fast with
  | some e =>
    simp only [CpOpts.transfer, hfast] at hout
    split at hout
    · obtain rfl := Option.some.inj hout
      exact absurd (fun _ => nofun) hskip'
    · obtain rfl := Option.some.inj hout
      exact absurd (doOne_notSkipped _ _ _ _ _ _) hskip'
  | none =>
    simp only [CpOpts.transfer, hfast] at hout
    obtain ⟨u, hu, rfl⟩ := Option.map_eq_some_iff.mp hout
    dsimp only at hskip'
    split at hskip'
    · rename_i e he
      refine ⟨rfl, guards_of_skipped hu ?_⟩
      rw [he]
      exact hskip'
    · exact absurd (removeSource_notSkipped _ _ _) hskip'

theorem run_reports {pairs : List CpPair} (h : Machine.run (CpState.step opts) s pairs = some s') :
    (∀ r ∈ s.reports, r ∈ s'.reports) ∧ ∀ pair ∈ pairs, ∃ r ∈ s'.reports,
      r.target = opts.written pair ∧
        (r.result = .skipped → opts.fast = none ∧ opts.toCopyOneOpts.Guards pair) := by
  induction pairs generalizing s with
  | nil =>
    obtain rfl := Option.some.inj h
    exact ⟨fun r hr => hr, fun pair hp => absurd hp (List.not_mem_nil)⟩
  | cons first pairs ih =>
    obtain ⟨u, hu, hrun⟩ := Machine.run_cons_eq_some.mp h
    obtain ⟨r, hreports, htarget, hguards⟩ := guards_of_report hu
    obtain ⟨hkeep, hrest⟩ := ih hrun
    rw [hreports] at hkeep
    refine ⟨fun r hr => hkeep r (List.mem_append_left _ hr), fun pair hp => ?_⟩
    rcases List.mem_cons.mp hp with rfl | hp
    · exact ⟨r, hkeep r (List.mem_append_right _ (List.mem_singleton.mpr rfl)), htarget, hguards⟩
    · exact hrest pair hp

end Run

/-- **No overwriting.** In every run of `cp` or `mv` with `--if-none-match`, an object
that is at the key of some pair stays, with no pair for it copied and no source of
such a pair removed, where the fast path is not used and every write to the key is
guarded. Where nothing else fails, that is just when these pairs are also skipped. -/
theorem if_none_match_spares (opts : CpOpts) (hcond : opts.metadata.ifNoneMatch = true)
    (key : Str × Str) (object : ObjectContent) (stores : Stores)
    (hobject : stores .destination key = some object) (pairs : List CpPair)
    (hkey : ∃ pair ∈ pairs, opts.written pair = key)
    (hsource : ∀ pair ∈ pairs, opts.LeavesSource key pair) (t : CpState)
    (hrun : Machine.run (CpState.step opts) { stores := stores } pairs = some t) :
    (opts.Careful key pairs → t.Spares key object) ∧
      ((∀ pair ∈ pairs, pair.Quiet opts.toCopyOneOpts) →
        (t.Spares key object ∧ t.Skips key ↔ opts.Careful key pairs)) := by
  have hstart : CpState.Spares key object { stores := stores } := ⟨hobject, nofun⟩
  refine ⟨fun hcareful => ?_, fun hquiet => ⟨fun hspares => ?_, fun hcareful => ?_⟩⟩
  · refine Machine.along_invariant (C := fun _ pair => pair ∈ pairs) ?_
      (Machine.along_of_mem _ fun pair hp => hp) hrun hstart
    intro s pair s' hp hstep hs
    exact (step_spares hcond hcareful.slow (hcareful.guards pair hp) (hsource pair hp) hstep hs).1
  · have hguards := (run_reports hrun).2
    have hskipped : ∀ pair ∈ pairs, opts.written pair = key →
        opts.fast = none ∧ opts.toCopyOneOpts.Guards pair := by
      intro pair hp hpair
      obtain ⟨r, hr, htarget, hskip⟩ := hguards pair hp
      exact hskip (hspares.2 r hr (htarget.trans hpair))
    obtain ⟨pair, hp, hpair⟩ := hkey
    exact ⟨(hskipped pair hp hpair).1, fun pair hp hpair => (hskipped pair hp hpair).2⟩
  · refine Machine.along_invariant (P := fun s : CpState => s.Spares key object ∧ s.Skips key)
      (C := fun _ pair => pair ∈ pairs) ?_ (Machine.along_of_mem _ fun pair hp => hp) hrun
      ⟨hstart, nofun⟩
    intro s pair s' hp hstep hs
    obtain ⟨hspares, hskips⟩ :=
      step_spares hcond hcareful.slow (hcareful.guards pair hp) (hsource pair hp) hstep hs.1
    exact ⟨hspares, hskips (hquiet pair hp) hs.2⟩

/-! ## Two runs -/

/-- The stores with one object. -/
def holding (key : Str × Str) (object : ObjectContent) : Stores := fun side k =>
  if side = .destination ∧ k = key then some object else none

/-- An environment without a fault. -/
def CopyOneEnv.sample : CopyOneEnv where
  clientCopy := { download := { get := serveObject [7] } }

/-- A file and an object are moved onto an object. -/
def twoMoves : List CpPair :=
  [⟨.ofString "file", .ofString "s3://b/k", .sample⟩,
    ⟨.ofString "s3://b/other", .ofString "s3://b/k", .sample⟩]

def moving : CpOpts := { isMove := true, metadata := { ifNoneMatch := true } }

theorem if_none_match_spares_moved :
    ∃ t, Machine.run (CpState.step moving) { stores := holding ("b".toList, "k".toList) ⟨[1], {}⟩ }
        twoMoves = some t ∧ t.reports.map PairReport.result = [.skipped, .skipped] ∧
      t.Spares ("b".toList, "k".toList) ⟨[1], {}⟩ := by
  obtain ⟨t, hrun, hskipped⟩ : ∃ t, Machine.run (CpState.step moving)
      { stores := holding ("b".toList, "k".toList) ⟨[1], {}⟩ } twoMoves = some t ∧
        t.reports.map PairReport.result = [.skipped, .skipped] :=
    Machine.exists_run_of_any (by decide +kernel)
  refine ⟨t, hrun, hskipped, (if_none_match_spares moving rfl ("b".toList, "k".toList) ⟨[1], {}⟩
    (holding ("b".toList, "k".toList) ⟨[1], {}⟩) rfl twoMoves
    ⟨_, List.mem_cons_self, by decide +kernel⟩ ?_ t hrun).1 ⟨rfl, ?_⟩⟩
  · intro pair hp _ _ _ hother
    rcases List.mem_pair.mp hp with rfl | rfl
    · exact absurd (by decide +kernel) hother
    · exact absurd (by decide +kernel) hother
  · intro pair hp _
    rcases List.mem_pair.mp hp with rfl | rfl
    · exact ⟨rfl, by decide +kernel, fun h => absurd h (by decide +kernel)⟩
    · refine ⟨rfl, by decide +kernel, fun _ _ _ => ⟨fun h => absurd h (by decide +kernel), rfl, ?_⟩⟩
      decide +kernel

/-- A symbolic link is moved to its placeholder, which is there already: the object is
replaced, the pair is reported as moved and the link is removed. -/
theorem if_none_match_replaces_link :
    ∃ t, Machine.run (CpState.step { moving with links := true })
        { stores := holding ("b".toList, "k.s5cmdlink".toList) ⟨[1], {}⟩ }
        [⟨.ofString "link", .ofString "s3://b/k", { CopyOneEnv.sample with readLink := some (.ok [2]) }⟩] =
          some t ∧
      (t.stores .destination ("b".toList, "k.s5cmdlink".toList)).map ObjectContent.bytes = some [2] ∧
      t.reports.map (fun r => (r.target, r.removed, r.result)) =
        [(("b".toList, "k.s5cmdlink".toList), true, .done)] :=
  Machine.exists_run_of_any (by decide +kernel)

end Rs5cmd
