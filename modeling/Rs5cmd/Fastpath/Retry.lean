import Rs5cmd.Fastpath.Client

/-!
# Retries of the fast client (`fastpath/client.rs`, `fastpath/runtime.rs`)

What the client makes of each response, and the loop that repeats a call while its
error says so. Sending is done by crates, so what it answers is a parameter, and so
is how a status code is displayed.
-/

namespace Rs5cmd

/-- A response: its status code and its body. -/
structure HttpResponse where
  status : Nat
  body : List UInt8
  deriving DecidableEq, Repr

/-- The errors of the client's calls: `HttpStatusError`, or any other, of building a
request, connecting, sending or reading. -/
inductive FastError where
  | http (status : Nat) (message : Str)
  | other (message : Str)
  deriving DecidableEq, Repr

/-- `StatusCode::is_success`. -/
def HttpResponse.isSuccess (resp : HttpResponse) : Bool := 200 ≤ resp.status && resp.status < 300

/-- `HttpStatusError::is_retryable`. -/
def isRetryableStatus (status : Nat) : Bool :=
  (500 ≤ status && status < 600) || status = 408 || status = 429

/-- `is_retryable`. -/
def FastError.isRetryable : FastError → Bool
  | .http status _ => isRetryableStatus status
  | .other _ => true

/-- `memmem`. -/
def memmem (haystack needle : List UInt8) : Bool :=
  if needle.isEmpty || haystack.length < needle.length then needle.isEmpty
  else haystack.tails.any fun w => needle.isPrefixOf w

namespace FastClient

section Responses

-- `Display` of a status code
variable (showStatus : Nat → Str)

/-- The error for a response that is no success. -/
def statusError (what : Str) (resp : HttpResponse) : FastError :=
  .http resp.status (what ++ " -> ".toList ++ showStatus resp.status ++ ": ".toList ++
    Utf8.decodeLossy resp.body)

/-- What `put` makes of the response. -/
def putResult (bucket key : Str) (resp : HttpResponse) : Except FastError Unit :=
  if !resp.isSuccess then
    .error (statusError showStatus ("PUT ".toList ++ bucket ++ '/' :: key) resp)
  else .ok ()

/-- What `get` makes of the response. -/
def getResult (bucket key : Str) (resp : HttpResponse) : Except FastError (List UInt8) :=
  if !resp.isSuccess then
    .error (statusError showStatus ("GET ".toList ++ bucket ++ '/' :: key) resp)
  else .ok resp.body

/-- What `delete` makes of the response: a 404 is a success. -/
def deleteResult (bucket key : Str) (resp : HttpResponse) : Except FastError Unit :=
  if !resp.isSuccess && resp.status ≠ 404 then
    .error (statusError showStatus ("DELETE ".toList ++ bucket ++ '/' :: key) resp)
  else .ok ()

/-- What `copy` makes of the response, which can be a success with an error in its
body. -/
def copyResult (srcBucket srcKey dstBucket dstKey : Str) (resp : HttpResponse) :
    Except FastError Unit :=
  let what := "COPY ".toList ++ srcBucket ++ '/' :: srcKey ++ " -> ".toList ++ dstBucket ++ '/' :: dstKey
  if !resp.isSuccess then .error (statusError showStatus what resp)
  else if memmem resp.body (Utf8.encode "<Error".toList) then
    .error (.http 500 (what ++ ": 200 OK with error body: ".toList ++ Utf8.decodeLossy resp.body))
  else .ok ()

/-- What a call makes of its response: the body for a `get`. -/
def result (call : FastCall) (resp : HttpResponse) : Except FastError (List UInt8) :=
  match call with
  | .put bucket key _ => (putResult showStatus bucket key resp).map fun _ => []
  | .get bucket key => getResult showStatus bucket key resp
  | .delete bucket key => (deleteResult showStatus bucket key resp).map fun _ => []
  | .copy srcBucket srcKey dstBucket dstKey =>
    (copyResult showStatus srcBucket srcKey dstBucket dstKey resp).map fun _ => []

/-- The response to a call, given what `send` answers. -/
def respond (c : FastClient) (send : Request → Except Str HttpResponse) (call : FastCall) :
    Except Str HttpResponse := do
  let req ← c.request call
  send req

/-- `put`, `get`, `delete` and `copy`. -/
def exec (c : FastClient) (send : Request → Except Str HttpResponse) (call : FastCall) :
    Except FastError (List UInt8) :=
  match c.respond send call with
  | .error e => .error (.other e)
  | .ok resp => result showStatus call resp

end Responses

end FastClient

/-! ## The loop -/

/-- What a retried operation comes to: its result, how often it was called, and for
how many milliseconds the loop slept after each failed attempt. -/
structure Retried (α : Type) where
  result : Except FastError α
  calls : Nat
  sleeps : List Nat

/-- Exponential backoff: 50 ms, 100 ms, 200 ms, ... capped at 5 s. -/
def backoffMs (attempt : Nat) : Nat := min (50 <<< min attempt 7) 5000

/-- The loop of `with_retry` from an attempt on; `op` answers each attempt. -/
def withRetryFrom {α : Type} (maxRetries : Nat) (op : Nat → Except FastError α) (attempt : Nat) :
    Retried α :=
  match op attempt with
  | .ok v => ⟨.ok v, 1, []⟩
  | .error e =>
    if h : maxRetries ≤ attempt ∨ !e.isRetryable then ⟨.error e, 1, []⟩
    else
      let rest := withRetryFrom maxRetries op (attempt + 1)
      ⟨rest.result, rest.calls + 1, backoffMs attempt :: rest.sleeps⟩
  termination_by maxRetries - attempt
  decreasing_by
    have hlt : attempt < maxRetries := Nat.lt_of_not_le fun hle => h (.inl hle)
    exact Nat.sub_succ_lt_self _ _ hlt

/-- `with_retry`. -/
def withRetry {α : Type} (maxRetries : Nat) (op : Nat → Except FastError α) : Retried α :=
  withRetryFrom maxRetries op 0

end Rs5cmd
