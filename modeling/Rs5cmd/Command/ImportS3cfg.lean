import Rs5cmd.Lines

/-!
# `import-s3cfg` (`command/import_s3cfg.rs`)

The command writes the imported credentials into a section of the shared credentials
file and keeps what else stands there.
-/

namespace Rs5cmd

/-- What `replace_ini_section` keeps while it reads the lines. -/
structure IniScan where
  out : Str := []
  skipping : Bool := false
  replaced : Bool := false
  deriving DecidableEq, Repr

/-- `[name]`. -/
def iniHeader (name : Str) : Str := '[' :: (name ++ [']'])

/-- A line that the scanner takes for the start of a section. -/
def isBracketed (line : Str) : Bool :=
  Str.startsWith ['['] (Str.trim line) && Str.endsWith ']' (Str.trim line)

/-- The header that is looked for. -/
def isHeader (name line : Str) : Bool := Str.trim line == iniHeader name

/-- The replacement with a line feed at its end. -/
def closed (replacement : Str) : Str :=
  if Str.endsWith '\n' replacement then replacement else replacement ++ ['\n']

/-- One round of the loop. -/
def IniScan.line (name replacement : Str) (s : IniScan) (line : Str) : IniScan :=
  if isBracketed line && isHeader name line then
    { out := s.out ++ closed replacement, skipping := true, replaced := true }
  else
    let s := if isBracketed line then { s with skipping := false } else s
    if s.skipping then s else { s with out := s.out ++ line ++ ['\n'] }

/-- `replace_ini_section`. -/
def replaceIniSection (text name replacement : Str) : Str :=
  let s := (Str.lines text).foldl (IniScan.line name replacement) {}
  if s.replaced then s.out
  else
    let out := if s.out ≠ [] ∧ Str.endsWith '\n' s.out = false then s.out ++ ['\n'] else s.out
    out ++ closed replacement

/-- The section that `write_aws_credentials` puts in. -/
def awsSection (profile accessKey secretKey : Str) (sessionToken : Option Str) : Str :=
  iniHeader profile ++ "\naws_access_key_id = ".toList ++ accessKey ++
    "\naws_secret_access_key = ".toList ++ secretKey ++ ['\n'] ++
    (sessionToken.map fun tok => "aws_session_token = ".toList ++ tok ++ ['\n']).getD []

/-- What `write_aws_credentials` writes over the credentials file. -/
def writeAwsCredentials (existing profile accessKey secretKey : Str) (sessionToken : Option Str) :
    Str :=
  replaceIniSection existing profile (awsSection profile accessKey secretKey sessionToken)

end Rs5cmd
