import Rs5cmd.Command.ImportS3cfg
import Rs5cmd.Command.Run
import Rs5cmd.S3cfg

/-!
# Configuration files and the global options (`command/mod.rs`, `command/import_s3cfg.rs`)

`run` fills the global options that were left unset from the file behind `--s3cfg` and then
from the dotfile `~/.rs5cmd`; `import-s3cfg` writes that dotfile, and the credentials into
the shared credentials file.

Files are texts under their paths. Writing one succeeds; reading one may fail, with the
text of the system's error.
-/

namespace Rs5cmd

/-- `Path::join` with the name of a file. -/
def joinPath (base file : Str) : Str :=
  if base = [] ∨ Str.endsWith '/' base then base ++ file else base ++ '/' :: file

structure Disk where
  /-- `std::fs::read_to_string`. -/
  read : Str → Except Str Str

/-- `std::fs::write`. -/
def Disk.write (disk : Disk) (path text : Str) : Disk where
  read := Function.update disk.read path (.ok text)

theorem Disk.read_write (disk : Disk) (path text : Str) :
    (disk.write path text).read path = .ok text := by
  simp only [Disk.write, Function.update_self]

theorem Disk.read_write_of_ne (disk : Disk) {path other : Str} (h : other ≠ path) (text : Str) :
    (disk.write path text).read other = disk.read other := by
  simp only [Disk.write, Function.update_of_ne h]

/-- The `AWS_*` variables of the process that hold credentials. -/
structure AwsEnv where
  accessKeyId : Option Str := none
  secretAccessKey : Option Str := none
  sessionToken : Option Str := none
  deriving DecidableEq, Repr

/-- What the configuration files are applied to. -/
structure Settings where
  global : GlobalOpts := {}
  env : AwsEnv := {}
  deriving DecidableEq, Repr

/-- `set_env_if_unset`. -/
def setEnvIfUnset (current val : Option Str) : Option Str := current.or val

/-- `apply_translated`. -/
def applyTranslated (t : Translated) (s : Settings) : Settings where
  env :=
    { accessKeyId := setEnvIfUnset s.env.accessKeyId t.accessKey
      secretAccessKey := setEnvIfUnset s.env.secretAccessKey t.secretKey
      sessionToken := setEnvIfUnset s.env.sessionToken t.sessionToken }
  global :=
    { s.global with
      endpointUrl := s.global.endpointUrl.or t.endpointUrl
      region := s.global.region.or t.region
      addressingStyle := s.global.addressingStyle.or t.addressingStyle
      noVerifySsl := if t.noVerifySsl then true else s.global.noVerifySsl
      caCertsFile := s.global.caCertsFile.or t.caCertsFile
      proxy := s.global.proxy.or t.proxy
      requestPayer := s.global.requestPayer.or t.requestPayer
      limitrate := s.global.limitrate.or (t.limitrate.map fun rate => Str.decimal rate.toNat)
      -- 10 is the default, and stands for an option that was not given
      retryCount :=
        if s.global.retryCount = 10 then t.retryCount.getD s.global.retryCount
        else s.global.retryCount }

section Files

variable (bytesize : Str → Except Str UInt64) (debug : Str → Str)

/-- `load_rs5cmd_dotfile`. -/
def loadRs5cmdDotfile (home : Option Str) (disk : Disk) : Option Translated :=
  home.bind fun home =>
    match disk.read (joinPath home ".rs5cmd".toList) with
    | .ok text => some (fromRs5cmd (fun s => (bytesize s).toOption) (parseIni text))
    | .error _ => none

/-- The configuration files of `run`. -/
def applyConfig (home : Option Str) (disk : Disk) (s : Settings) : Except Str Settings :=
  let withDotfile (s : Settings) : Settings :=
    match loadRs5cmdDotfile bytesize home disk with
    | some t => applyTranslated t s
    | none => s
  match s.global.s3cfg with
  | none => .ok (withDotfile s)
  | some path =>
    match disk.read path with
    | .error e => .error ("reading --s3cfg ".toList ++ path ++ ": ".toList ++ e)
    | .ok text =>
      .ok (withDotfile (applyTranslated (translateS3cfg bytesize debug (parseIni text)) s))

/-- `ImportS3cfgArgs`. -/
structure ImportS3cfgArgs where
  path : Str
  out : Option Str := none
  profile : Str := "default".toList
  noCredentials : Bool := false

/-- The shared credentials file. -/
def awsCredentials (home : Str) : Str :=
  joinPath (joinPath home ".aws".toList) "credentials".toList

/-- `import_s3cfg::run`: the files it leaves, and whether it succeeded. -/
def importS3cfg (home : Option Str) (disk : Disk) (args : ImportS3cfgArgs) : Disk × Except Str Unit :=
  match disk.read args.path with
  | .error e => (disk, .error ("reading ".toList ++ args.path ++ ": ".toList ++ e))
  | .ok text =>
    let t := translateS3cfg bytesize debug (parseIni text)
    match args.out.or (home.map fun home => joinPath home ".rs5cmd".toList) with
    | none => (disk, .error "HOME is not set".toList)
    | some out =>
      let disk := disk.write out t.toRs5cmdIni
      if args.noCredentials then (disk, .ok ())
      else
        match t.accessKey, t.secretKey, home with
        | some ak, some sk, some home =>
          -- a credentials file that cannot be read counts as an empty one
          let existing := (disk.read (awsCredentials home)).toOption.getD []
          (disk.write (awsCredentials home)
            (writeAwsCredentials existing args.profile ak sk t.sessionToken), .ok ())
        | some _, some _, none => (disk, .error "HOME is not set".toList)
        | _, _, _ => (disk, .ok ())

end Files

end Rs5cmd
