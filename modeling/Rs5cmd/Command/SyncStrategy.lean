import Rs5cmd.Storage.Object
import Rs5cmd.Storage.S3.List

/-!
# Sync strategies (`command/sync_strategy.rs`)

Whether a source object is copied over its destination counterpart.
-/

namespace Rs5cmd

/-- `SyncStrategy`. -/
inductive SyncStrategy where
  | sizeOnly
  | sizeAndModification
  | checksum
  deriving DecidableEq, Repr

namespace SyncStrategy

/-- `checksum` takes precedence over `size_only`. -/
def new (sizeOnly checksum : Bool) : SyncStrategy :=
  if checksum then .checksum else if sizeOnly then .sizeOnly else .sizeAndModification

/-- `is_after`: an unknown time counts as the epoch. -/
def isAfter (a b : Option Int) : Bool := b.getD 0 < a.getD 0

/-- `should_sync`. -/
def shouldSync : SyncStrategy → Object → Object → Bool
  | .sizeOnly, src, dst => src.size != dst.size
  | .sizeAndModification, src, dst => isAfter src.modTime dst.modTime || src.size != dst.size
  | .checksum, src, dst =>
    let s := trimQuotes src.etag
    let d := trimQuotes dst.etag
    s.isEmpty || d.isEmpty || Str.contains ['-'] s || Str.contains ['-'] d || s != d

end SyncStrategy

end Rs5cmd
