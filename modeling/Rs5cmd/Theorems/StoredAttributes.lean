import Rs5cmd.Storage.S3.PartPlan

/-!
# The attributes of an object, and the way it was written

A copy takes attributes from its source and from its arguments, an upload from its
arguments. One request for the whole object and a multipart upload each set them field by
field; here it is said for which sources and arguments they set the same.
-/

namespace Rs5cmd

/-! ## Sameness -/

/-- What is compared of two copies. An object that was given no content type has the
default of the store. -/
structure SameCopied (defaultType : Str) (a b : Attributes) : Prop where
  contentType : a.contentType.getD defaultType = b.contentType.getD defaultType
  userDefined : a.userDefined = b.userDefined
  cacheControl : a.cacheControl = b.cacheControl
  storageClass : a.storageClass = b.storageClass
  acl : a.acl = b.acl

/-- What is compared of two uploads. -/
structure SameUploaded (defaultType : Str) (a b : Attributes) : Prop extends
    SameCopied defaultType a b where
  contentEncoding : a.contentEncoding = b.contentEncoding
  contentDisposition : a.contentDisposition = b.contentDisposition

/-- What a copy has to be asked for to come out the same both ways, where `answered` says
that the multipart copy learns the content type of the source. -/
def CopyUnaffected (defaultType : Str) (metadata : Metadata) (src : Attributes) (answered : Prop) :
    Prop :=
  if headerValue metadata.directive = some "REPLACE".toList then
    metadata.userDefined = ∅ ∧
      (headerValue metadata.contentType = none → answered →
        src.contentType.getD defaultType = defaultType)
  else
    src.userDefined = ∅ ∧ src.cacheControl = headerValue metadata.cacheControl ∧
      match headerValue metadata.contentType with
      | some override => src.contentType.getD defaultType = override
      | none => answered ∨ src.contentType.getD defaultType = defaultType

/-- An upload comes out the same both ways if it is asked for none of these. -/
structure UploadUnaffected (metadata : Metadata) : Prop where
  cacheControl : headerValue metadata.cacheControl = none
  contentEncoding : headerValue metadata.contentEncoding = none
  contentDisposition : headerValue metadata.contentDisposition = none

/-! ## The attributes that are sent -/

theorem sameUploaded_iff (defaultType : Str) (metadata : Metadata) :
    SameUploaded defaultType metadata.putAttributes metadata.createAttributes ↔
      UploadUnaffected metadata := by
  constructor
  · intro h
    exact ⟨h.cacheControl, h.contentEncoding, h.contentDisposition⟩
  · intro h
    exact ⟨⟨rfl, rfl, h.cacheControl, rfl, rfl⟩, h.contentEncoding, h.contentDisposition⟩

/-- The content types of the two copies, with no other one asked for. -/
theorem inherited_type_eq_iff {defaultType : Str} {env : CopyEnv} {src : Option Str} :
    src.getD defaultType = (if env.headContentType.isNone then src else none).getD defaultType ↔
      env.headContentType = none ∨ src.getD defaultType = defaultType := by
  cases hhead : env.headContentType with
  | none => simp
  | some e => simp

theorem default_type_eq_iff {defaultType : Str} {env : CopyEnv} {src : Option Str} :
    defaultType = (if env.headContentType.isNone then src else none).getD defaultType ↔
      (env.headContentType = none → src.getD defaultType = defaultType) := by
  cases hhead : env.headContentType with
  | none => simp [eq_comm]
  | some e => simp

theorem sameCopied_iff (defaultType : Str) (env : CopyEnv) (metadata : Metadata) (src : ObjectContent) :
    SameCopied defaultType (metadata.copyAttributes src.attrs) (copyMultipartAttributes env src metadata) ↔
      CopyUnaffected defaultType metadata src.attrs (env.headContentType = none) := by
  unfold CopyUnaffected Metadata.copyAttributes
  split
  · -- everything is replaced
    constructor
    · intro h
      refine ⟨h.userDefined, fun htype => ?_⟩
      have hsame := h.contentType
      simp only [copyMultipartAttributes, htype] at hsame
      exact default_type_eq_iff.mp hsame
    · rintro ⟨huser, htype⟩
      refine ⟨?_, huser, rfl, rfl, rfl⟩
      cases hasked : headerValue metadata.contentType with
      | some ct => simp [copyMultipartAttributes, hasked]
      | none =>
        simp only [copyMultipartAttributes, hasked]
        exact default_type_eq_iff.mpr (htype hasked)
  · -- the source is kept
    constructor
    · intro h
      refine ⟨h.userDefined, h.cacheControl, ?_⟩
      have hsame := h.contentType
      cases hasked : headerValue metadata.contentType with
      | some ct =>
        simp only [copyMultipartAttributes, hasked] at hsame
        exact hsame
      | none =>
        simp only [copyMultipartAttributes, hasked] at hsame
        exact inherited_type_eq_iff.mp hsame
    · rintro ⟨huser, hcache, htype⟩
      refine ⟨?_, huser, hcache, rfl, rfl⟩
      cases hasked : headerValue metadata.contentType with
      | some ct =>
        simp only [copyMultipartAttributes, hasked] at htype ⊢
        exact htype
      | none =>
        simp only [copyMultipartAttributes, hasked] at htype ⊢
        exact inherited_type_eq_iff.mpr htype

/-! ## The objects that are written -/

/-- A multipart upload that succeeds leaves what its parts are assembled to. -/
theorem runMultipart_ok {env : UploadEnv} {ifNoneMatch : Bool} {attrs : Attributes}
    {mapErr : GetError → UploadError} {before : Option ObjectContent} {out : MultipartOutcome}
    {parts : Option (List (Nat × List UInt8) × Except StorageError (List CompletedPart))}
    (h : runMultipart env ifNoneMatch attrs mapErr before parts = some out)
    (hok : out.result = .ok ()) :
    ∃ stored ps bytes, parts = some (stored, .ok ps) ∧ assembleParts env stored ps = .ok bytes ∧
      out.object = some ⟨bytes, attrs⟩ := by
  unfold runMultipart at h
  dsimp only at h
  split at h
  · obtain rfl := Option.some.inj h
    cases hok
  · split at h
    · obtain rfl := Option.some.inj h
      cases hok
    · obtain ⟨⟨stored, r⟩, hparts, rfl⟩ := Option.map_eq_some_iff.mp h
      cases r with
      | error e => cases hok
      | ok ps =>
        simp only [settleMultipart] at hok ⊢
        generalize hhandled : (assembleParts env stored ps).bind _ = handled at hok ⊢
        cases hsent : (env.completeMultipartUpload.send (before, some stored) handled).2 with
        | error e =>
          rw [hsent] at hok
          cases hok
        | ok u =>
          have hstored := WriteRequestFault.send_ok hsent
          cases hassemble : assembleParts env stored ps with
          | error e =>
            rw [hassemble] at hhandled
            rw [← hhandled] at hstored
            cases hstored
          | ok bytes =>
            refine ⟨stored, ps, bytes, hparts, hassemble, ?_⟩
            rw [hassemble, hstored, Except.bind] at hhandled
            cases hstore : storeObject ifNoneMatch ⟨bytes, attrs⟩ before with
            | error e =>
              rw [hstore] at hhandled
              cases hhandled
            | ok after =>
              rw [hstore] at hhandled
              rw [← Except.ok.inj hhandled]
              exact storeObject_ok hstore

theorem copyObjectSingle_ok {env : CopyEnv} {src : ObjectContent} {dst : Str} {metadata : Metadata}
    {before : Option ObjectContent}
    (hok : (copyObjectSingle env src dst metadata before).result = .ok ()) :
    (copyObjectSingle env src dst metadata before).object =
      some ⟨src.bytes, metadata.copyAttributes src.attrs⟩ := by
  unfold copyObjectSingle at hok ⊢
  split at hok
  · cases hok
  · rename_i hcond
    rw [if_neg hcond]
    dsimp only at hok ⊢
    generalize hhandled : (if src.bytes.length ≤ defaultMultipartCopyThreshold then _ else _) =
      handled at hok ⊢
    cases hsent : (env.copyObject.send before handled).2 with
    | error e =>
      rw [hsent] at hok
      cases hok
    | ok u =>
      rw [WriteRequestFault.send_ok hsent] at hhandled
      split at hhandled
      · exact (Except.ok.inj hhandled).symm
      · cases hhandled

/-- The parts of a copy are few enough to be assembled to its source. -/
theorem copyParts_ok {opts : CopyOpts} {env : CopyEnv} {sched : List (Pool.Event Unit)}
    {data : List UInt8} {stored : List (Nat × List UInt8)} {ps : List CompletedPart}
    (h : copyParts opts env sched data = some (stored, .ok ps)) :
    assembleParts env.multipart stored ps = .ok data := by
  have hpos : 0 < (opts.forParts data.length).partSize :=
    Nat.lt_of_lt_of_le (by decide) (opts.forParts data.length).le_partSize
  have hfew : nParts data.length (opts.forParts data.length).partSize ≤ maxMultipartParts :=
    (nParts_le_iff hpos).mpr (size_le_mul_copyPartSize opts.partSize data.length)
  have hcount := uploadPartCount_of_lt (Nat.lt_of_le_of_lt hfew (by decide))
  have hassemble : assembleParts { env.multipart with readFrom := fun _ => none } stored ps =
      .ok data := uploadParts_ok hcount h
  exact hassemble

theorem copyMultipart_ok {opts : CopyOpts} {env : CopyEnv} {sched : List (Pool.Event Unit)}
    {src : ObjectContent} {metadata : Metadata} {before : Option ObjectContent}
    {out : MultipartOutcome} (h : copyMultipart opts env sched src metadata before = some out)
    (hok : out.result = .ok ()) :
    out.object = some ⟨src.bytes, copyMultipartAttributes env src metadata⟩ := by
  obtain ⟨stored, ps, bytes, hparts, hassemble, hobj⟩ := runMultipart_ok h hok
  have hbytes : bytes = src.bytes := by
    rw [copyParts_ok hparts] at hassemble
    exact (Except.ok.inj hassemble).symm
  rw [hobj, hbytes]

theorem uploadMultipart_ok {opts : UploadOpts} {env : UploadEnv} {sched : List (Pool.Event Unit)}
    {data : List UInt8} {dst : Str} {metadata : Metadata} {before : Option ObjectContent}
    {out : UploadOutcome} (h : uploadMultipart opts env sched data dst metadata before = some out)
    (hok : out.result = .ok ()) : ∃ bytes, out.object = some ⟨bytes, metadata.createAttributes⟩ := by
  rw [uploadMultipart_eq] at h
  obtain ⟨run, hrun, rfl⟩ := Option.map_eq_some_iff.mp h
  obtain ⟨-, -, bytes, -, -, hobj⟩ := runMultipart_ok hrun hok
  exact ⟨bytes, hobj⟩

/-- **When the way of writing leaves no trace.** Take two sources with the same
attributes, of whatever sizes, or two files, and the same arguments: of each pair, one is
written with one request and the other in parts, and both writes succeed. The two copies
have the bytes of their sources, and the same attributes exactly if the copy is
`CopyUnaffected`; the two uploads have the same attributes exactly if nothing is asked for
that only the one request sets. -/
theorem stored_attributes_iff (defaultType : Str) (metadata : Metadata) :
    (∀ (opts : CopyOpts) (env₁ env₂ : CopyEnv) (sched : List (Pool.Event Unit))
      (src₁ src₂ : ObjectContent) (dst : Str) (before₁ before₂ : Option ObjectContent)
      (out : MultipartOutcome), src₁.attrs = src₂.attrs →
      (copyObjectSingle env₁ src₁ dst metadata before₁).result = .ok () →
      copyMultipart opts env₂ sched src₂ metadata before₂ = some out → out.result = .ok () →
      ∃ one parts, (copyObjectSingle env₁ src₁ dst metadata before₁).object = some one ∧
        out.object = some parts ∧ one.bytes = src₁.bytes ∧ parts.bytes = src₂.bytes ∧
        (SameCopied defaultType one.attrs parts.attrs ↔
          CopyUnaffected defaultType metadata src₁.attrs (env₂.headContentType = none))) ∧
    (∀ (opts : UploadOpts) (env₁ env₂ : UploadEnv) (sched : List (Pool.Event Unit))
      (data₁ data₂ : List UInt8) (dst : Str) (before₁ before₂ : Option ObjectContent)
      (out : UploadOutcome), (uploadSingle env₁ data₁ dst metadata before₁).result = .ok () →
      uploadMultipart opts env₂ sched data₂ dst metadata before₂ = some out → out.result = .ok () →
      ∃ one parts, (uploadSingle env₁ data₁ dst metadata before₁).object = some one ∧
        out.object = some parts ∧
        (SameUploaded defaultType one.attrs parts.attrs ↔ UploadUnaffected metadata)) := by
  constructor
  · intro opts env₁ env₂ sched src₁ src₂ dst before₁ before₂ out hattrs hone hparts hok
    refine ⟨_, _, copyObjectSingle_ok hone, copyMultipart_ok hparts hok, rfl, rfl, ?_⟩
    rw [hattrs]
    exact sameCopied_iff defaultType env₂ metadata src₂
  · intro opts env₁ env₂ sched data₁ data₂ dst before₁ before₂ out hone hparts hok
    obtain ⟨bytes, hobj⟩ := uploadMultipart_ok hparts hok
    exact ⟨_, _, uploadSingle_ok hone, hobj, sameUploaded_iff defaultType metadata⟩

/-! ## Runs -/

/-- A multipart upload with no fault succeeds once its parts have. -/
theorem runMultipart_faultless {attrs : Attributes} {mapErr : GetError → UploadError}
    {before : Option ObjectContent} {stored : List (Nat × List UInt8)} {ps : List CompletedPart}
    {data : List UInt8} (hassemble : assembleParts {} stored ps = .ok data) :
    ∃ out, runMultipart {} false attrs mapErr before (some (stored, .ok ps)) = some out ∧
      out.result = .ok () := by
  refine ⟨settleMultipart {} false attrs mapErr before stored (.ok ps), rfl, ?_⟩
  simp only [settleMultipart, hassemble]
  rfl

theorem exists_copyMultipart (opts : CopyOpts) (src : ObjectContent) (metadata : Metadata)
    (before : Option ObjectContent) :
    ∃ sched out, copyMultipart opts {} sched src metadata before = some out ∧ out.result = .ok () := by
  obtain ⟨sched, ⟨stored, r⟩, hparts⟩ := exists_uploadParts (opts.forParts src.bytes.length)
    { ({} : UploadEnv) with readFrom := fun _ => none } src.bytes
  obtain ⟨ps, rfl⟩ := uploadParts_faultless (fun _ => rfl) (fun _ => rfl) hparts
  have hcopied : copyParts opts {} sched src.bytes = some (stored, .ok ps) := hparts
  have hassemble : assembleParts {} stored ps = .ok src.bytes := copyParts_ok hcopied
  refine ⟨sched, ?_⟩
  unfold copyMultipart
  rw [hcopied]
  exact runMultipart_faultless hassemble

theorem exists_uploadMultipart (opts : UploadOpts) (data : List UInt8) (dst : Str)
    (metadata : Metadata) (before : Option ObjectContent) (hcond : metadata.ifNoneMatch = false) :
    ∃ sched out, uploadMultipart opts {} sched data dst metadata before = some out ∧
      out.result = .ok () := by
  obtain ⟨sched, ⟨stored, r⟩, hparts⟩ := exists_uploadParts opts {} data
  obtain ⟨hiff, hassemble⟩ := uploadParts_spec hparts
  obtain ⟨ps, rfl⟩ := hiff.mpr fun i _ => ⟨rfl, rfl⟩
  obtain ⟨out, hrun, hok⟩ : ∃ out, runMultipart {} false metadata.createAttributes
      (mapConditionalWriteError · dst) before (some (stored, .ok ps)) = some out ∧
        out.result = .ok () := runMultipart_faultless (hassemble ps rfl)
  refine ⟨sched, out.toUploadOutcome, ?_, hok⟩
  rw [uploadMultipart_eq, uploadMultipartRun, hparts, hcond, hrun]
  rfl

namespace AttributesSample

/-- 6 MiB, so two parts. -/
def twoParts : List UInt8 := List.replicate (6 * 1024 * 1024) 0

theorem copyObjectSingle_twoParts (attrs : Attributes) {metadata : Metadata}
    (hcond : metadata.ifNoneMatch = false) :
    (copyObjectSingle {} ⟨twoParts, attrs⟩ [] metadata none).result = .ok () := by
  have hsize : twoParts.length ≤ defaultMultipartCopyThreshold := by
    rw [twoParts, List.length_replicate]
    decide
  simp only [copyObjectSingle, hcond, hsize, if_true]
  rfl

theorem uploadSingle_faultless (data : List UInt8) {metadata : Metadata}
    (hcond : metadata.ifNoneMatch = false) :
    (uploadSingle {} data [] metadata none).result = .ok () := by
  have hbody : singleBody {} data = .ok data := by simp [singleBody]
  rw [uploadSingle, hbody]
  simp [hcond, storeObject, WriteRequestFault.send]

/-- A page that is not to be cached. -/
def page : Attributes where
  contentType := some "text/html".toList
  cacheControl := some "no-cache".toList

/-- A copy that says again how its source is to be cached. -/
def kept : Metadata where
  cacheControl := some "no-cache".toList
  storageClass := some "STANDARD_IA".toList
  acl := some "private".toList

/-- An upload with a content type, a storage class and a tag. -/
def labelled : Metadata where
  contentType := some "text/html".toList
  storageClass := some "STANDARD_IA".toList
  userDefined := Std.ExtTreeMap.ofList [("team".toList, "ops".toList)]

/-- A page and a file whose attributes are the same however they are written. -/
theorem stored_attributes_same :
    (∃ sched out one parts, copyMultipart {} {} sched ⟨twoParts, page⟩ kept none = some out ∧
      (copyObjectSingle {} ⟨twoParts, page⟩ [] kept none).object = some one ∧
      out.object = some parts ∧ SameCopied "binary/octet-stream".toList one.attrs parts.attrs) ∧
    ∃ sched out one parts, uploadMultipart {} {} sched twoParts [] labelled none = some out ∧
      (uploadSingle {} twoParts [] labelled none).object = some one ∧ out.object = some parts ∧
      SameUploaded "binary/octet-stream".toList one.attrs parts.attrs := by
  constructor
  · obtain ⟨sched, out, hrun, hok⟩ := exists_copyMultipart {} ⟨twoParts, page⟩ kept none
    obtain ⟨one, parts, hone, hparts, -, -, hiff⟩ :=
      (stored_attributes_iff "binary/octet-stream".toList kept).1 {} {} {} sched ⟨twoParts, page⟩
        ⟨twoParts, page⟩ [] none none out rfl (copyObjectSingle_twoParts page rfl) hrun hok
    exact ⟨sched, out, one, parts, hrun, hone, hparts, hiff.mpr ⟨rfl, by decide, .inl rfl⟩⟩
  · obtain ⟨sched, out, hrun, hok⟩ := exists_uploadMultipart {} twoParts [] labelled none rfl
    obtain ⟨one, parts, hone, hparts, hiff⟩ :=
      (stored_attributes_iff "binary/octet-stream".toList labelled).2 {} {} {} sched twoParts
        twoParts [] none none out (uploadSingle_faultless twoParts rfl) hrun hok
    exact ⟨sched, out, one, parts, hrun, hone, hparts, hiff.mpr ⟨rfl, rfl, rfl⟩⟩

/-- The attributes of an object that its owner has tagged. -/
def tagged : Attributes := { userDefined := Std.ExtTreeMap.ofList [("team".toList, "ops".toList)] }

/-- One request keeps the tag, a copy in parts has none. -/
theorem stored_attributes_lost :
    ∃ sched out one parts,
      (copyObjectSingle {} ⟨twoParts, tagged⟩ [] {} none).result = .ok () ∧
      copyMultipart {} {} sched ⟨twoParts, tagged⟩ {} none = some out ∧ out.result = .ok () ∧
      (copyObjectSingle {} ⟨twoParts, tagged⟩ [] {} none).object = some one ∧
      out.object = some parts ∧
      one.attrs.userDefined["team".toList]? = some "ops".toList ∧
      parts.attrs.userDefined["team".toList]? = none := by
  obtain ⟨sched, out, hrun, hok⟩ := exists_copyMultipart {} ⟨twoParts, tagged⟩ {} none
  have hone : (copyObjectSingle {} ⟨twoParts, tagged⟩ [] {} none).result = .ok () :=
    copyObjectSingle_twoParts tagged rfl
  refine ⟨sched, out, _, _, hone, hrun, hok, copyObjectSingle_ok hone, copyMultipart_ok hrun hok, ?_, ?_⟩
  · decide +kernel
  · decide +kernel

end AttributesSample

end Rs5cmd
