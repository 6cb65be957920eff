import Rs5cmd.Lib.Maps
import Rs5cmd.Lines

/-!
# Configuration files (`s3cfg.rs`)

The INI reader that the `.s3cfg` of s3cmd and the dotfile `~/.rs5cmd` share, and how the
dotfile is written and read.
-/

namespace Rs5cmd

/-- Settings from a configuration file. -/
structure Translated where
  accessKey : Option Str := none
  secretKey : Option Str := none
  sessionToken : Option Str := none
  endpointUrl : Option Str := none
  addressingStyle : Option Str := none
  region : Option Str := none
  noVerifySsl : Bool := false
  caCertsFile : Option Str := none
  proxy : Option Str := none
  retryCount : Option UInt32 := none
  limitrate : Option UInt64 := none
  requestPayer : Option Str := none
  warnings : List Str := []
  deriving DecidableEq, Repr

/-! ## Writing -/

/-- The lines that `to_rs5cmd_ini` may write, in its order. -/
def Translated.fields (t : Translated) : List (Str × Option Str) :=
  [("endpoint_url".toList, t.endpointUrl), ("region".toList, t.region),
    ("addressing_style".toList, t.addressingStyle),
    ("no_verify_ssl".toList, if t.noVerifySsl then some "true".toList else none),
    ("ca_certs_file".toList, t.caCertsFile), ("proxy".toList, t.proxy),
    ("retry_count".toList, t.retryCount.map fun n => Str.decimal n.toNat),
    ("limitrate".toList, t.limitrate.map fun n => Str.decimal n.toNat),
    ("request_payer".toList, t.requestPayer)]

/-- `kv`. -/
def iniPair (k v : Str) : Str := k ++ " = ".toList ++ v

/-- The comment and the header at the top of the dotfile. -/
def rs5cmdHead : Str := "# rs5cmd config (generated by `import-s3cfg`)\n[rs5cmd]\n".toList

/-- `Translated::to_rs5cmd_ini`. -/
def Translated.toRs5cmdIni (t : Translated) : Str :=
  rs5cmdHead ++
    t.fields.flatMap fun field => (field.2.map fun v => iniPair field.1 v ++ ['\n']).getD []

/-! ## Reading -/

abbrev IniMap := Std.ExtTreeMap Str Str compare

/-- The key and the value of a line, if it has them. -/
def parseIniLine (line : Str) : Option (Str × Str) :=
  let line := Str.trim line
  if line = [] ∨ Str.startsWith ['#'] line ∨ Str.startsWith [';'] line then none
  else if Str.startsWith ['['] line then none
  else (Str.splitOnce ['='] line).map fun kv => (Str.toAsciiLowercase (Str.trim kv.1), Str.trim kv.2)

/-- `parse_ini`. -/
def parseIni (text : Str) : IniMap :=
  ((Str.lines text).filterMap parseIniLine).foldl (fun map kv => map.insert kv.1 kv.2) ∅

/-- `parse_bool`. -/
def parseBool (s : Str) : Option Bool :=
  let s := Str.toAsciiLowercase (Str.trim s)
  if s ∈ ["true".toList, "1".toList, "yes".toList, "on".toList] then some true
  else if s ∈ ["false".toList, "0".toList, "no".toList, "off".toList] then some false
  else none

/-- `parse_byte_rate`. What is no plain number is left to the `bytesize` crate. -/
def parseByteRate (bytesize : Str → Option UInt64) (s : Str) : Option UInt64 :=
  match Str.parseUnsigned 64 (Str.trim s) with
  | some n => some (UInt64.ofNat n)
  | none => bytesize (Str.trim s)

def nonempty (map : IniMap) (key : Str) : Option Str := (map[key]?.map Str.trim).filter (· ≠ [])

/-- `from_rs5cmd`. -/
def fromRs5cmd (bytesize : Str → Option UInt64) (map : IniMap) : Translated where
  accessKey := nonempty map "access_key".toList
  secretKey := nonempty map "secret_key".toList
  sessionToken := nonempty map "session_token".toList
  endpointUrl := nonempty map "endpoint_url".toList
  addressingStyle := nonempty map "addressing_style".toList
  region := nonempty map "region".toList
  noVerifySsl := (map["no_verify_ssl".toList]?.bind parseBool).getD false
  caCertsFile := nonempty map "ca_certs_file".toList
  proxy := nonempty map "proxy".toList
  retryCount := map["retry_count".toList]?.bind fun v =>
    (Str.parseUnsigned 32 (Str.trim v)).map UInt32.ofNat
  limitrate := (nonempty map "limitrate".toList).bind (parseByteRate bytesize)
  requestPayer := nonempty map "request_payer".toList
  warnings := []

/-! ## A file of s3cmd -/

/-- `normalize_region`. -/
def normalizeRegion (loc : Str) : Str :=
  if Str.trim loc = "US".toList ∨ Str.trim loc = "us".toList then "us-east-1".toList
  else if Str.trim loc = "EU".toList ∨ Str.trim loc = "eu".toList then "eu-west-1".toList
  else Str.trim loc

/-- `map.get(key).and_then(|v| parse_bool(v))`. -/
def iniFlag (map : IniMap) (key : Str) : Option Bool := map[key]?.bind parseBool

/-- The URL of an endpoint: the host may have a scheme of its own. -/
def endpointOf (https : Bool) (host : Str) : Str :=
  let host := Str.trimEndMatches '/' host
  let lower := Str.toAsciiLowercase host
  if Str.startsWith "http://".toList lower || Str.startsWith "https://".toList lower then host
  else (if https then "https".toList else "http".toList) ++ "://".toList ++ host

/-- The endpoint of `translate_s3cfg`. -/
def s3cfgEndpoint (map : IniMap) : Option Str :=
  (nonempty map "host_base".toList).map (endpointOf ((iniFlag map "use_https".toList).getD true))

/-- The addressing style that the template for bucket hosts stands for. -/
def s3cfgAddressing (map : IniMap) : Option Str :=
  (nonempty map "host_bucket".toList).map fun hb =>
    if Str.startsWith "%(bucket)s".toList (hb.dropWhile Str.isWhitespace) then "virtual".toList
    else "path".toList

def s3cfgRegion (map : IniMap) : Option Str :=
  ((nonempty map "region".toList).or (nonempty map "bucket_location".toList)).map normalizeRegion

def s3cfgNoVerify (map : IniMap) : Bool :=
  iniFlag map "check_ssl_certificate".toList == some false ||
    iniFlag map "check_ssl_hostname".toList == some false

/-- The URL of a proxy: the host may have a scheme of its own. -/
def proxyOf (port : Option Nat) (ph : Str) : Str :=
  let lower := Str.toAsciiLowercase ph
  if Str.startsWith "http://".toList lower || Str.startsWith "https://".toList lower ||
      Str.startsWith "socks5".toList lower then ph
  else "http://".toList ++ ph ++ ":".toList ++ Str.decimal (port.getD 3128)

/-- The proxy of `translate_s3cfg`. -/
def s3cfgProxy (map : IniMap) : Option Str :=
  (nonempty map "proxy_host".toList).map
    (proxyOf (map["proxy_port".toList]?.bind fun p => Str.parseUnsigned 16 (Str.trim p)))

/-- The texts of the options that are not honoured, in the order they are looked at. -/
def s3cfgNotes (map : IniMap) : List Str :=
  (if iniFlag map "signature_v2".toList == some true then
      ["signature_v2 is not supported (rs5cmd signs with SigV4 only); ignoring".toList]
    else []) ++
  (if (nonempty map "storage_class".toList).isSome then
      ["storage_class is not applied globally; pass --storage-class per command".toList]
    else []) ++
  (if iniFlag map "server_side_encryption".toList == some true ||
        (nonempty map "kms_key".toList).isSome then
      ["server-side encryption is not applied globally; pass --sse/--sse-kms-key-id per command".toList]
    else []) ++
  (if iniFlag map "encrypt".toList == some true then
      ["client-side GPG encryption (encrypt) is not supported; ignoring".toList]
    else [])

section Rates

-- the `bytesize` crate with the texts of its errors, and how `{:?}` shows a text
variable (bytesize : Str → Except Str UInt64) (debug : Str → Str)

/-- `parse_byte_rate` with the text of its error. -/
def byteRate (s : Str) : Except Str UInt64 :=
  match Str.parseUnsigned 64 (Str.trim s) with
  | some n => .ok (UInt64.ofNat n)
  | none =>
    (bytesize (Str.trim s)).mapError fun e =>
      "invalid byte rate ".toList ++ debug (Str.trim s) ++ ": ".toList ++ e

/-- `parse_byte_rate(..).ok()`. -/
theorem toOption_byteRate (s : Str) :
    (byteRate bytesize debug s).toOption = parseByteRate (fun s => (bytesize s).toOption) s := by
  rw [byteRate, parseByteRate]
  split
  · rfl
  · cases bytesize (Str.trim s) with
    | error e => rfl
    | ok n => rfl

/-- The rate of `translate_s3cfg`, or the note about it: 0 stands for no limit. -/
def s3cfgRate (map : IniMap) : Option UInt64 × List Str :=
  match nonempty map "limitrate".toList with
  | none => (none, [])
  | some raw =>
    match byteRate bytesize debug raw with
    | .ok n => (if 0 < n then some n else none, [])
    | .error e => (none, ["ignoring limitrate: ".toList ++ e])

/-- `translate_s3cfg`. -/
def translateS3cfg (map : IniMap) : Translated where
  accessKey := nonempty map "access_key".toList
  secretKey := nonempty map "secret_key".toList
  sessionToken := nonempty map "access_token".toList
  caCertsFile := nonempty map "ca_certs_file".toList
  endpointUrl := s3cfgEndpoint map
  addressingStyle := s3cfgAddressing map
  region := s3cfgRegion map
  noVerifySsl := s3cfgNoVerify map
  proxy := s3cfgProxy map
  retryCount := map["max_retries".toList]?.bind fun v =>
    (Str.parseUnsigned 32 (Str.trim v)).map UInt32.ofNat
  limitrate := (s3cfgRate bytesize debug map).1
  requestPayer :=
    if iniFlag map "requester_pays".toList == some true then some "requester".toList else none
  warnings := (s3cfgRate bytesize debug map).2 ++ s3cfgNotes map

end Rates

end Rs5cmd
