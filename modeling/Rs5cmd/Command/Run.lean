import Rs5cmd.Lib.Cmdline
import Rs5cmd.Str

/-!
# Command files and the global options (`command/run.rs`, `command/mod.rs`)

Each line of a command file is run as a command line of its own: `build_argv` spells
the global options of the `run` invocation out again before the tokens of the line,
and the parser reads the result. The parser is clap's, derived from `Cli`; it is a
parameter here. How the options are declared is `globalArgs`, and what a parse
leaves in `GlobalOpts` is `GlobalOpts.ofMatches`.

A subcommand with an option of a global option's name (the `--profile` of
`import-s3cfg`) gives that global option: clap keeps one value for each name.
-/

namespace Rs5cmd

/-! ## The global options -/

inductive ColorMode where
  | auto
  | always
  | never
  deriving DecidableEq, Repr

def ColorMode.ofText (s : Str) : Option ColorMode :=
  if s = "auto".toList then some .auto
  else if s = "always".toList then some .always
  else if s = "never".toList then some .never
  else none

structure GlobalOpts where
  endpointUrl : Option Str := none
  noSignRequest : Bool := false
  useListObjectsV1 : Bool := false
  noVerifySsl : Bool := false
  dryRun : Bool := false
  json : Bool := false
  region : Option Str := none
  sourceRegion : Option Str := none
  destinationRegion : Option Str := none
  sourceEndpointUrl : Option Str := none
  destinationEndpointUrl : Option Str := none
  profile : Option Str := none
  addressingStyle : Option Str := none
  useDualstackEndpoint : Bool := false
  useFipsEndpoint : Bool := false
  proxy : Option Str := none
  numworkers : UInt64 := 256
  retryCount : UInt32 := 10
  color : ColorMode := .auto
  limitUpload : Option Str := none
  limitDownload : Option Str := none
  limitrate : Option Str := none
  caCertsFile : Option Str := none
  requestPayer : Option Str := none
  credentialsFile : Option Str := none
  s3cfg : Option Str := none
  installCompletion : Bool := false
  deriving DecidableEq, Repr

/-- The fields of `GlobalOpts`, as clap's arguments. -/
inductive GlobalArg where
  | endpointUrl
  | noSignRequest
  | useListObjectsV1
  | noVerifySsl
  | dryRun
  | json
  | region
  | sourceRegion
  | destinationRegion
  | sourceEndpointUrl
  | destinationEndpointUrl
  | profile
  | addressingStyle
  | useDualstackEndpoint
  | useFipsEndpoint
  | proxy
  | numworkers
  | retryCount
  | color
  | limitUpload
  | limitDownload
  | limitrate
  | caCertsFile
  | requestPayer
  | credentialsFile
  | s3cfg
  | installCompletion
  deriving DecidableEq, Repr

namespace GlobalArg

/-- `#[arg(long)]`: the field's name in kebab case. -/
def long : GlobalArg → Str
  | endpointUrl => "--endpoint-url".toList
  | noSignRequest => "--no-sign-request".toList
  | useListObjectsV1 => "--use-list-objects-v1".toList
  | noVerifySsl => "--no-verify-ssl".toList
  | dryRun => "--dry-run".toList
  | json => "--json".toList
  | region => "--region".toList
  | sourceRegion => "--source-region".toList
  | destinationRegion => "--destination-region".toList
  | sourceEndpointUrl => "--source-endpoint-url".toList
  | destinationEndpointUrl => "--destination-endpoint-url".toList
  | profile => "--profile".toList
  | addressingStyle => "--addressing-style".toList
  | useDualstackEndpoint => "--use-dualstack-endpoint".toList
  | useFipsEndpoint => "--use-fips-endpoint".toList
  | proxy => "--proxy".toList
  | numworkers => "--numworkers".toList
  | retryCount => "--retry-count".toList
  | color => "--color".toList
  | limitUpload => "--limit-upload".toList
  | limitDownload => "--limit-download".toList
  | limitrate => "--limitrate".toList
  | caCertsFile => "--ca-certs-file".toList
  | requestPayer => "--request-payer".toList
  | credentialsFile => "--credentials-file".toList
  | s3cfg => "--s3cfg".toList
  | installCompletion => "--install-completion".toList

/-- A `bool` field is a switch; the others take a value. -/
def isSwitch : GlobalArg → Bool
  | noSignRequest => true
  | useListObjectsV1 => true
  | noVerifySsl => true
  | dryRun => true
  | json => true
  | useDualstackEndpoint => true
  | useFipsEndpoint => true
  | installCompletion => true
  | _ => false

/-- The value parser of a field: that of its type, or of its `value_parser`. -/
def accepts : GlobalArg → Str → Bool
  | addressingStyle, v => v == "path".toList || v == "virtual".toList
  | numworkers, v => (Str.parseUnsigned 64 v).isSome
  | retryCount, v => (Str.parseUnsigned 32 v).isSome
  | color, v => (ColorMode.ofText v).isSome
  | _, _ => true

end GlobalArg

/-- A token that is an option rather than the value of one: it starts with `-` and is
not `-` itself. -/
def optionLike : Str → Bool
  | '-' :: _ :: _ => true
  | _ => false

/-- The global options as they are declared. -/
def globalArgs : Cmdline GlobalArg Str where
  name := GlobalArg.long
  takesValue := fun o => !o.isSwitch
  accepts := GlobalArg.accepts
  optionLike := optionLike

/-- The environment variables that stand in for an option that is not given. -/
structure Env where
  awsEndpointUrl : Option Str := none
  awsRegion : Option Str := none

/-- What a parse leaves in the fields: the given value, else that of the environment,
else the default. -/
def GlobalOpts.ofMatches (env : Env) (given : GlobalArg → Option (List Str)) : GlobalOpts :=
  let text (o : GlobalArg) : Option Str := (given o).bind List.head?
  let switch (o : GlobalArg) : Bool := (given o).isSome
  { endpointUrl := (text .endpointUrl).or env.awsEndpointUrl
    noSignRequest := switch .noSignRequest
    useListObjectsV1 := switch .useListObjectsV1
    noVerifySsl := switch .noVerifySsl
    dryRun := switch .dryRun
    json := switch .json
    region := (text .region).or env.awsRegion
    sourceRegion := text .sourceRegion
    destinationRegion := text .destinationRegion
    sourceEndpointUrl := text .sourceEndpointUrl
    destinationEndpointUrl := text .destinationEndpointUrl
    profile := text .profile
    addressingStyle := text .addressingStyle
    useDualstackEndpoint := switch .useDualstackEndpoint
    useFipsEndpoint := switch .useFipsEndpoint
    proxy := text .proxy
    numworkers := UInt64.ofNat (((text .numworkers).bind (Str.parseUnsigned 64)).getD 256)
    retryCount := UInt32.ofNat (((text .retryCount).bind (Str.parseUnsigned 32)).getD 10)
    color := ((text .color).bind ColorMode.ofText).getD .auto
    limitUpload := text .limitUpload
    limitDownload := text .limitDownload
    limitrate := text .limitrate
    caCertsFile := text .caCertsFile
    requestPayer := text .requestPayer
    credentialsFile := text .credentialsFile
    s3cfg := text .s3cfg
    installCompletion := switch .installCompletion }

/-! ## The parser -/

/-- `Cli`; the subcommands and their arguments are left to `κ`. -/
structure Cli (κ : Type) where
  global : GlobalOpts
  command : Option κ

/-- What clap finds in the arguments of a command line. -/
abbrev Clap (κ : Type) : Type := List Str → Except Str (Cmdline.Matches GlobalArg Str (Option κ))

/-- `Cli::try_parse_from`: the first argument is the program's name. -/
def tryParseFrom {κ : Type} (clap : Clap κ) (env : Env) (argv : List Str) : Except Str (Cli κ) :=
  (clap argv.tail).map fun m => { global := GlobalOpts.ofMatches env m.given, command := m.command }

/-! ## The arguments of one line -/

/-- An option is pushed with its value, if it has one. -/
def pushOption (name : String) : Option Str → List Str
  | some v => [name.toList, v]
  | none => []

def pushSwitch (name : String) (on : Bool) : List Str := if on then [name.toList] else []

/-- `build_argv`. -/
def buildArgv (global : GlobalOpts) (tokens : List Str) : List Str :=
  "rs5cmd".toList ::
    (pushOption "--endpoint-url" global.endpointUrl ++
      (pushOption "--region" global.region ++
      (pushOption "--profile" global.profile ++
      (pushOption "--addressing-style" global.addressingStyle ++
      (pushOption "--proxy" global.proxy ++
      (pushSwitch "--no-sign-request" global.noSignRequest ++
      (pushSwitch "--no-verify-ssl" global.noVerifySsl ++
      (pushSwitch "--dry-run" global.dryRun ++
      (pushSwitch "--json" global.json ++
      (pushSwitch "--use-list-objects-v1" global.useListObjectsV1 ++
      (["--numworkers".toList, Str.decimal global.numworkers.toNat] ++
      (["--retry-count".toList, Str.decimal global.retryCount.toNat] ++
      (pushOption "--ca-certs-file" global.caCertsFile ++
      (pushOption "--request-payer" global.requestPayer ++
      (pushOption "--limitrate" global.limitrate ++ tokens)))))))))))))))

end Rs5cmd
