import Rs5cmd.Fastpath.DoOne
import Rs5cmd.Theorems.FastRequest
import Rs5cmd.Theorems.KeyEncoding

/-!
# What the fast client's calls do

From the request that a call builds, through its signed headers and its spelled-out path,
to what the server makes of it: where the names mean themselves in a URL, an attempt of a
call does what the call says or nothing, and its answer decides how `do_one` goes on.
-/

namespace Rs5cmd

open LexPath

/-! ## What a request does -/

/-- The signer keeps the headers it is given. -/
def HttpCrate.KeepsHeaders (http : HttpCrate) : Prop :=
  ∀ req hs, http.sign req = .ok hs →
    ∀ name ∈ ["host".toList, "x-amz-copy-source".toList], hs.lookup name = req.headers.lookup name

/-- A bucket name as S3 has them: letters, digits, `-`, `_`, `.` and `~`. -/
def IsBucketName (b : Str) : Prop := ∀ x ∈ Utf8.encode b, isUnreserved x = true

instance (b : Str) : Decidable (IsBucketName b) := List.decidableBAll _ _

theorem IsBucketName.slash_not_mem {b : Str} (h : IsBucketName b) : '/' ∉ b := by
  intro hmem
  have hbyte : (47 : UInt8) ∈ Utf8.encode b := List.mem_flatMap.mpr ⟨'/', hmem, by decide⟩
  exact absurd (h 47 hbyte) (by decide)

theorem pathObject_append {bucket : Str} (h : '/' ∉ bucket) (key : Str) :
    pathObject ('/' :: (bucket ++ '/' :: key)) = some (bucket, key) := by
  have hstrip : Str.stripPrefix ['/'] ('/' :: (bucket ++ '/' :: key)) =
      some (bucket ++ '/' :: key) := Str.stripPrefix_append ['/'] _
  rw [pathObject, hstrip, Option.bind_some]
  exact Str.splitOnce_char_append h key

theorem percentDecode_of_pathSafe {s : Str} (h : PathSafe s) : percentDecode ('/' :: s) = '/' :: s := by
  have hbytes : percentDecodeBytes (Utf8.encode ('/' :: s)) = Utf8.encode ('/' :: s) := by
    show percentDecodeBytes (47 :: Utf8.encode s) = 47 :: Utf8.encode s
    rw [percentDecodeBytes_cons (by decide), percentDecodeBytes_of_hasEscape_eq_false h.2]
  rw [percentDecode, hbytes, Utf8.decodeLossy_encode]

section Requests

variable {c : FastClient} {bucket key : Str}

/-- A request that is built for an object is for that object. -/
theorem object?_of_build (hhttp : c.http.Spec) (hbucket : IsBucketName bucket)
    (hsafe : PathSafe (bucket ++ '/' :: key)) {method : Method} {body : List UInt8}
    {extra : List (Str × Str)} {req : Request}
    (h : c.buildRequestWithHeaders method bucket key body extra = .ok req) :
    req.method = method ∧ req.body = body ∧ req.object? = some (bucket, key) := by
  obtain ⟨hmethod, hbody, huri⟩ := FastClient.buildRequestWithHeaders_ok hhttp h
  refine ⟨hmethod, hbody, ?_⟩
  rw [Request.object?, huri, queryText_eq_none hsafe.1]
  show pathObject (percentDecode ('/' :: pathText (bucket ++ '/' :: key))) = some (bucket, key)
  rw [pathText_eq_self hsafe.1, percentDecode_of_pathSafe hsafe]
  exact pathObject_append hbucket.slash_not_mem key

theorem copySource?_of_build (hkeeps : c.http.KeepsHeaders) {method : Method} {body : List UInt8}
    {extra : List (Str × Str)} {req : Request}
    (h : c.buildRequestWithHeaders method bucket key body extra = .ok req) :
    req.copySource? = extra.lookup "x-amz-copy-source".toList := by
  unfold FastClient.buildRequestWithHeaders at h
  obtain ⟨uri, -, h⟩ := Except.bind_eq_ok_iff.mp h
  obtain ⟨headers, hsign, h⟩ := Except.bind_eq_ok_iff.mp h
  obtain ⟨sent, -, h⟩ := Except.bind_eq_ok_iff.mp h
  obtain rfl := Except.ok.inj h
  have hlookup := hkeeps _ headers hsign "x-amz-copy-source".toList (by decide)
  rw [Request.copySource?, hlookup]
  show List.lookup _ (("host".toList, _) :: extra) = _
  rw [List.lookup_cons]
  rfl

/-- The fast path's copy source names the source. -/
theorem pathObject_copySource (hbucket : IsBucketName bucket) (key : Str) :
    pathObject (percentDecode (FastClient.copySource bucket key)) = some (bucket, key) := by
  have hself : FastClient.copySource bucket key = encodeKeyPath ('/' :: (bucket ++ '/' :: key)) := by
    have happend : ∀ s t : Str, encodeKeyPath (s ++ t) = encodeKeyPath s ++ encodeKeyPath t := by
      intro s t
      simp [encodeKeyPath, Percent.encode, Utf8.encode_append]
    rw [show '/' :: (bucket ++ '/' :: key) = ['/'] ++ (bucket ++ (['/'] ++ key)) from rfl, happend,
      happend, happend, encodeKeyPath_eq_self hbucket]
    rfl
  rw [hself, percentDecode_encodeKeyPath]
  exact pathObject_append hbucket.slash_not_mem key

end Requests

/-! ## What a call does -/

namespace FastCall

/-- What the server does when it carries out a call. -/
def effect (w : World) : FastCall → World
  | .put bucket key body => w.set (objectCell (bucket, key)) (some (.bytes body))
  | .get .. => w
  | .delete bucket key => w.set (objectCell (bucket, key)) none
  | .copy srcBucket srcKey dstBucket dstKey =>
    match w.bytesAt (objectCell (srcBucket, srcKey)) with
    | some b => w.set (objectCell (dstBucket, dstKey)) (some (.bytes b))
    | none => w

theorem effect_copy_none {srcBucket srcKey : Str} (dstBucket dstKey : Str)
    (h : w.bytesAt (objectCell (srcBucket, srcKey)) = none) :
    effect w (.copy srcBucket srcKey dstBucket dstKey) = w := by
  rw [effect, h]

theorem effect_copy_some {srcBucket srcKey : Str} {b : List UInt8} (dstBucket dstKey : Str)
    (h : w.bytesAt (objectCell (srcBucket, srcKey)) = some b) :
    effect w (.copy srcBucket srcKey dstBucket dstKey) =
      w.set (objectCell (dstBucket, dstKey)) (some (.bytes b)) := by
  rw [effect, h]

/-- Whether a call can succeed with this body. -/
def canAnswer (w : World) (body : List UInt8) : FastCall → Bool
  | .get bucket key => w.bytesAt (objectCell (bucket, key)) = some body
  | .copy srcBucket srcKey _ _ => (w.bytesAt (objectCell (srcBucket, srcKey))).isSome
  | _ => true

/-- The request of the call reaches its objects. -/
def Addressed (call : FastCall) : Prop :=
  IsBucketName call.target.1 ∧ PathSafe (call.target.1 ++ '/' :: call.target.2) ∧
    match call with
    | .copy srcBucket _ _ _ => IsBucketName srcBucket
    | _ => True

/-- The object whose bytes a call needs. -/
def reads : FastCall → Option Cell
  | .get bucket key => some (objectCell (bucket, key))
  | .copy srcBucket srcKey _ _ => some (objectCell (srcBucket, srcKey))
  | _ => none

section Congr

variable {w v : World} {call : FastCall}

theorem bytesAt_congr {c : Cell} (h : w c = v c) : w.bytesAt c = v.bytesAt c := by
  rw [World.bytesAt, World.bytesAt, h]

theorem canAnswer_congr (h : ∀ c ∈ call.reads, w c = v c) (body : List UInt8) :
    call.canAnswer w body = call.canAnswer v body := by
  cases call with
  | get bucket key => rw [canAnswer, canAnswer, bytesAt_congr (h _ rfl)]
  | copy srcBucket srcKey dstBucket dstKey => rw [canAnswer, canAnswer, bytesAt_congr (h _ rfl)]
  | _ => rfl

theorem effect_congr (h : ∀ c ∈ call.reads, w c = v c) {c : Cell} (hc : w c = v c) :
    call.effect w c = call.effect v c := by
  have hset : ∀ c' x, w.set c' x c = v.set c' x c := by
    intro c' x
    unfold World.set
    split
    · rfl
    · exact hc
  cases call with
  | put bucket key body => exact hset _ _
  | get bucket key => exact hc
  | delete bucket key => exact hset _ _
  | copy srcBucket srcKey dstBucket dstKey =>
    rw [effect, effect, bytesAt_congr (h _ rfl)]
    cases v.bytesAt (objectCell (srcBucket, srcKey)) with
    | none => exact hc
    | some b => exact hset _ _

end Congr

theorem request_eq {c : FastClient} (hhttp : c.http.Spec) (hkeeps : c.http.KeepsHeaders)
    {call : FastCall} (haddr : call.Addressed) {req : Request} (h : c.request call = .ok req)
    (w : World) : req.perform w = call.effect w ∧ ∀ body, req.canAnswer w body = call.canAnswer w body := by
  obtain ⟨hbucket, hsafe, hsrc⟩ := haddr
  cases call with
  | put bucket key data =>
    obtain ⟨hmethod, hbody, hobj⟩ := object?_of_build hhttp hbucket hsafe h
    have hcopy := copySource?_of_build hkeeps h
    have hstored : req.stored? w = some (.bytes data) := by
      rw [Request.stored?, hcopy, hbody]
      rfl
    refine ⟨?_, fun body => ?_⟩
    · simp only [Request.perform, hobj, hmethod, hstored]
      rfl
    · simp only [Request.canAnswer, hobj, hmethod, hstored]
      rfl
  | get bucket key =>
    obtain ⟨hmethod, -, hobj⟩ := object?_of_build hhttp hbucket hsafe h
    refine ⟨?_, fun body => ?_⟩
    · simp only [Request.perform, hobj, hmethod]
      rfl
    · simp only [Request.canAnswer, hobj, hmethod]
      rfl
  | delete bucket key =>
    obtain ⟨hmethod, -, hobj⟩ := object?_of_build hhttp hbucket hsafe h
    refine ⟨?_, fun body => ?_⟩
    · simp only [Request.perform, hobj, hmethod]
      rfl
    · simp only [Request.canAnswer, hobj, hmethod]
      rfl
  | copy srcBucket srcKey dstBucket dstKey =>
    obtain ⟨hmethod, -, hobj⟩ := object?_of_build hhttp hbucket hsafe h
    have hcopy : req.copySource? = some (FastClient.copySource srcBucket srcKey) := by
      rw [copySource?_of_build hkeeps h]
      simp
    have hstored : req.stored? w =
        (w.bytesAt (objectCell (srcBucket, srcKey))).map .bytes := by
      simp only [Request.stored?, hcopy, pathObject_copySource hsrc srcKey, Option.bind_some]
    refine ⟨?_, fun body => ?_⟩
    · simp only [Request.perform, hobj, hmethod, hstored, effect]
      cases w.bytesAt (objectCell (srcBucket, srcKey)) <;> rfl
    · simp only [Request.canAnswer, hobj, hmethod, hstored, canAnswer, Option.isSome_map]

end FastCall

namespace Fastpath

/-- Whether an attempt that fails has been carried out all the same. -/
def carriedOut (cfg : OneConfig) (call : FastCall) (applied : Bool) : Bool :=
  match cfg.client.request call with
  | .ok _ => applied
  | .error _ => false

/-- What follows an attempt that has failed. -/
def afterError (maxRetries : Nat) (call : FastCall) (attempt : Nat) (e : FastError) :
    Stage ⊕ Except FastError Unit :=
  if maxRetries ≤ attempt || !e.isRetryable then .inr (.error e)
  else .inl (.calling call (attempt + 1))

theorem afterError_cases (maxRetries : Nat) (call : FastCall) (attempt : Nat) (e : FastError) :
    afterError maxRetries call attempt e = .inr (.error e) ∨
      afterError maxRetries call attempt e = .inl (.calling call (attempt + 1)) := by
  unfold afterError
  split
  · exact .inl rfl
  · exact .inr rfl

/-- **One attempt**, by what the call means. -/
theorem tryCall_eq {cfg : OneConfig} (hhttp : cfg.client.http.Spec)
    (hkeeps : cfg.client.http.KeepsHeaders) {call : FastCall} (haddr : call.Addressed)
    (item : Transfer) (attempt : Nat) (resp : Except Str HttpResponse) (applied : Bool) (w : World) :
    tryCall cfg item call attempt resp applied w =
      match cfg.client.exec cfg.showStatus (fun _ => resp) call with
      | .ok body =>
        if applied && call.canAnswer w body then
          some (call.effect w, afterCall cfg.isMove item call body)
        else none
      | .error e =>
        some (if carriedOut cfg call applied then call.effect w else w,
          afterError cfg.maxRetries call attempt e) := by
  unfold tryCall carriedOut afterError
  cases hreq : cfg.client.request call with
  | error e =>
    have hexec : cfg.client.exec cfg.showStatus (fun _ => resp) call = .error (.other e) := by
      simp [FastClient.exec, FastClient.respond, hreq, bind, Except.bind]
    simp only [hexec, Bool.false_eq_true, if_false]
    split <;> rfl
  | ok req =>
    obtain ⟨hperform, hanswer⟩ := FastCall.request_eq hhttp hkeeps haddr hreq w
    cases cfg.client.exec cfg.showStatus (fun _ => resp) call with
    | ok body =>
      simp only [hanswer, hperform]
      cases applied <;> rfl
    | error e =>
      simp only [hperform]
      split <;> rfl

end Fastpath

end Rs5cmd
