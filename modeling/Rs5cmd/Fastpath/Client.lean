import Rs5cmd.Lib.Hoare
import Rs5cmd.Storage.S3.Server
import Mathlib.Data.List.TakeWhile

/-!
# The fast client's requests (`fastpath/client.rs`)

The io_uring client writes its own HTTP requests: it spells a path-style URL from
the bucket and the key, parses it, signs it and sends the path and query of what
was parsed. URI parsing and signing are done by crates and are parameters here;
`HttpCrate.Spec` is what is relied on of the parser.
-/

namespace Rs5cmd

/-! ## URIs -/

/-- A parsed URI: scheme and authority (empty in origin form), path and query. -/
structure Uri where
  origin : Str := []
  path : Str
  query : Option Str := none
  deriving DecidableEq, Repr

/-- `path_and_query().as_str()`. -/
def Uri.pathAndQuery (u : Uri) : Str :=
  match u.query with
  | some q => u.path ++ '?' :: q
  | none => u.path

/-- The characters at which a path ends. -/
def endsPath (c : Char) : Bool := c == '?' || c == '#'

/-- The path of what follows the authority, which is cut at the first `?` or `#`. -/
def pathText (s : Str) : Str := s.takeWhile fun c => !endsPath c

/-- The query of what follows the authority: from a `?` to the fragment. -/
def queryText (s : Str) : Option Str :=
  match s.dropWhile fun c => !endsPath c with
  | '?' :: q => some (q.takeWhile fun c => c != '#')
  | _ => none

inductive Method where
  | get
  | put
  | delete
  deriving DecidableEq, Repr

/-- An HTTP request. -/
structure Request where
  method : Method
  uri : Uri
  headers : List (Str × Str) := []
  body : List UInt8 := []
  deriving DecidableEq, Repr

/-- The crates the client is built on: the parser of `http::Uri`, and the signer,
which returns the headers of the signed request. -/
structure HttpCrate where
  parse : Str → Except Str Uri
  sign : Request → Except Str (List (Str × Str))

/-- A text that can stand between `://` and the path. -/
def IsAuthority (s : Str) : Prop := ∀ c ∈ s, c ≠ '/' ∧ endsPath c = false

instance (s : Str) : Decidable (IsAuthority s) := List.decidableBAll _ s

/-- What the client relies on of the parser: a URI that is accepted has its path
cut at the first `?` or `#`, and nothing of it is decoded. -/
structure HttpCrate.Spec (http : HttpCrate) : Prop where
  absolute : ∀ (scheme authority rest : Str) (u : Uri), scheme ∈ ["http".toList, "https".toList] →
    IsAuthority authority →
    http.parse (scheme ++ "://".toList ++ authority ++ '/' :: rest) = .ok u →
      u = ⟨scheme ++ "://".toList ++ authority, '/' :: pathText rest, queryText rest⟩
  originForm : ∀ (rest : Str) (u : Uri), http.parse ('/' :: rest) = .ok u →
    u = ⟨[], '/' :: pathText rest, queryText rest⟩

/-! ## The client -/

/-- `Endpoint`: an HTTP origin, as it is taken from a parsed `--endpoint-url`. -/
structure Endpoint where
  scheme : Str
  host : Str
  port : Nat
  scheme_mem : scheme ∈ ["http".toList, "https".toList]
  host_ok : IsAuthority host

namespace Endpoint

def isTls (e : Endpoint) : Bool := e.scheme == "https".toList

/-- `host_header`. -/
def hostHeader (e : Endpoint) : Str :=
  let default := if e.isTls then 443 else 80
  if e.port = default then e.host else e.host ++ ':' :: Str.decimal e.port

/-- `url`: the bucket and the key are written as they are. -/
def url (e : Endpoint) (bucket key : Str) : Str :=
  e.scheme ++ "://".toList ++ e.hostHeader ++ '/' :: (bucket ++ '/' :: key)

end Endpoint

structure FastClient where
  endpoint : Endpoint
  http : HttpCrate

/-- `encode_key_path`. -/
def encodeKeyPath (key : Str) : Str := Percent.encode isKeySafe key

/-- The calls of the client, with the object each of them is about. -/
inductive FastCall where
  | put (bucket key : Str) (body : List UInt8)
  | get (bucket key : Str)
  | delete (bucket key : Str)
  | copy (srcBucket srcKey dstBucket dstKey : Str)
  deriving DecidableEq, Repr

/-- The bucket and the key of the request's target. -/
def FastCall.target : FastCall → Str × Str
  | .put bucket key _ | .get bucket key | .delete bucket key => (bucket, key)
  | .copy _ _ dstBucket dstKey => (dstBucket, dstKey)

namespace FastClient

/-- `build_request_with_headers`. -/
def buildRequestWithHeaders (c : FastClient) (method : Method) (bucket key : Str)
    (body : List UInt8) (extraHeaders : List (Str × Str)) : Except Str Request := do
  let uri ← c.http.parse (c.endpoint.url bucket key)
  let headers ← c.http.sign
    { method := method, uri := uri, headers := ("host".toList, c.endpoint.hostHeader) :: extraHeaders }
  let sent ← c.http.parse uri.pathAndQuery
  return { method := method, uri := sent, headers := headers, body := body }

/-- `build_request`. -/
def buildRequest (c : FastClient) (method : Method) (bucket key : Str) (body : List UInt8) :
    Except Str Request :=
  c.buildRequestWithHeaders method bucket key body []

/-- The `x-amz-copy-source` header of a copy. -/
def copySource (srcBucket srcKey : Str) : Str := '/' :: (srcBucket ++ '/' :: encodeKeyPath srcKey)

/-- The request of a call. -/
def request (c : FastClient) : FastCall → Except Str Request
  | .put bucket key body => c.buildRequest .put bucket key body
  | .get bucket key => c.buildRequest .get bucket key []
  | .delete bucket key => c.buildRequest .delete bucket key []
  | .copy srcBucket srcKey dstBucket dstKey =>
    c.buildRequestWithHeaders .put dstBucket dstKey []
      [("x-amz-copy-source".toList, copySource srcBucket srcKey)]

end FastClient

/-! ## What is sent -/

theorem isAuthority_hostHeader (e : Endpoint) : IsAuthority e.hostHeader := by
  unfold Endpoint.hostHeader
  dsimp only
  generalize (if e.isTls then 443 else 80) = port
  split
  · exact e.host_ok
  · intro c hc
    rcases List.mem_append.mp hc with hc | hc
    · exact e.host_ok c hc
    · rcases List.mem_cons.mp hc with rfl | hc
      · decide
      · have hdigit := Str.isDigit_of_mem_decimal hc
        have hsep : ∀ d : Char, d.isDigit = false → c ≠ d := by
          intro d hd hcd
          rw [hcd, hd] at hdigit
          cases hdigit
        refine ⟨hsep _ (by decide), ?_⟩
        simp [endsPath, hsep '?' (by decide), hsep '#' (by decide)]

theorem not_endsPath_of_mem_pathText {s : Str} {c : Char} (hc : c ∈ pathText s) :
    (!endsPath c) = true :=
  List.mem_takeWhile_imp (p := fun c => !endsPath c) hc

theorem pathText_append_queryText (s : Str) :
    pathText (match queryText s with
      | some q => pathText s ++ '?' :: q
      | none => pathText s) = pathText s := by
  have hall : ∀ c ∈ pathText s, (!endsPath c) = true := fun c => not_endsPath_of_mem_pathText
  have hself : pathText (pathText s) = pathText s := List.takeWhile_eq_self_iff.mpr hall
  cases queryText s with
  | none => exact hself
  | some q =>
    show List.takeWhile _ (pathText s ++ '?' :: q) = pathText s
    rw [List.takeWhile_append_of_pos hall]
    simp [endsPath]

/-- The query survives being spelled out and parsed again. -/
theorem queryText_append_queryText (s : Str) :
    queryText (match queryText s with
      | some q => pathText s ++ '?' :: q
      | none => pathText s) = queryText s := by
  have hall : ∀ c ∈ pathText s, (!endsPath c) = true := fun c => not_endsPath_of_mem_pathText
  cases hq : queryText s with
  | none =>
    show queryText (pathText s) = none
    have hdrop : (pathText s).dropWhile (fun c => !endsPath c) = [] :=
      List.dropWhile_eq_nil_iff.mpr hall
    rw [queryText, hdrop]
  | some q =>
    -- a query has no `#` left in it
    have hqfree : q.takeWhile (fun c => c != '#') = q := by
      unfold queryText at hq
      split at hq
      · rename_i q' _
        obtain rfl := Option.some.inj hq
        exact List.takeWhile_idem ..
      · cases hq
    have hdrop : (pathText s ++ '?' :: q).dropWhile (fun c => !endsPath c) = '?' :: q := by
      rw [List.dropWhile_append_of_pos hall]
      simp [endsPath]
    show queryText (pathText s ++ '?' :: q) = some q
    rw [queryText, hdrop]
    show some (q.takeWhile fun c => c != '#') = some q
    rw [hqfree]

/-- **The request that is built**: its path is the bucket and the key as they are
spelled, up to the first `?` or `#`. -/
theorem FastClient.buildRequestWithHeaders_ok {c : FastClient} (hhttp : c.http.Spec)
    {method : Method} {bucket key : Str} {body : List UInt8} {extra : List (Str × Str)}
    {req : Request} (h : c.buildRequestWithHeaders method bucket key body extra = .ok req) :
    req.method = method ∧ req.body = body ∧
      req.uri = ⟨[], '/' :: pathText (bucket ++ '/' :: key), queryText (bucket ++ '/' :: key)⟩ := by
  unfold buildRequestWithHeaders at h
  obtain ⟨uri, huri, h⟩ := Except.bind_eq_ok_iff.mp h
  obtain ⟨headers, -, h⟩ := Except.bind_eq_ok_iff.mp h
  obtain ⟨sent, hsent, h⟩ := Except.bind_eq_ok_iff.mp h
  obtain rfl := Except.ok.inj h
  refine ⟨rfl, rfl, ?_⟩
  have habs := hhttp.absolute _ _ _ uri c.endpoint.scheme_mem (isAuthority_hostHeader c.endpoint) huri
  subst habs
  have hform : (Uri.mk (c.endpoint.scheme ++ "://".toList ++ c.endpoint.hostHeader)
      ('/' :: pathText (bucket ++ '/' :: key)) (queryText (bucket ++ '/' :: key))).pathAndQuery =
      '/' :: (match queryText (bucket ++ '/' :: key) with
        | some q => pathText (bucket ++ '/' :: key) ++ '?' :: q
        | none => pathText (bucket ++ '/' :: key)) := by
    unfold Uri.pathAndQuery
    cases queryText (bucket ++ '/' :: key) <;> rfl
  rw [hform] at hsent
  have hsent' := hhttp.originForm _ sent hsent
  rw [pathText_append_queryText, queryText_append_queryText] at hsent'
  exact hsent'

end Rs5cmd
