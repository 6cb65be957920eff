import Rs5cmd.Storage.Url

/-!
# Objects and errors (`storage/mod.rs`)

What listings and stats return, and the errors they carry in band.
-/

namespace Rs5cmd

/-- An error of the storage layer. `text` is what `to_string` prints and
`chain` what `{:#}` prints for an error of the SDK or of the operating system. -/
inductive StorageError where
  | objectNotFound (s : Str)
  | noObjectFound
  | other (text chain : Str)
  deriving DecidableEq, Repr

/-- `anyhow!(msg)`. -/
def StorageError.msg (s : Str) : StorageError := .other s s

/-- `err.to_string()`. -/
def StorageError.display : StorageError → Str
  | .objectNotFound s => "given object ".toList ++ s ++ " not found".toList
  | .noObjectFound => "no object found".toList
  | .other text _ => text

/-- `format!("{err:#}")`, with the sources of the error. -/
def StorageError.displayChain : StorageError → Str
  | .other _ chain => chain
  | e => e.display

/-- `ObjectType`. -/
inductive ObjectType where
  | file
  | dir
  | symlink
  | unknown
  deriving DecidableEq, Repr

def ObjectType.isDir : ObjectType → Bool
  | .dir => true
  | _ => false

/-- `StorageClass::is_glacier`. -/
def isGlacier (storageClass : Str) : Bool := storageClass == "GLACIER".toList

/-- `Object`. Times are nanoseconds since the Unix epoch. -/
structure Object where
  url : Option Url := none
  etag : Str := []
  modTime : Option Int := none
  typ : ObjectType := .unknown
  size : Int := 0
  storageClass : Str := []
  isDeleteMarker : Bool := false
  err : Option StorageError := none
  deriving DecidableEq, Repr

def Object.withError (e : StorageError) : Object := { err := some e }

end Rs5cmd
