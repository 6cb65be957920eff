import Rs5cmd.Lib.Namei
import Rs5cmd.Lib.Pool
import Rs5cmd.Lib.Utf8
import Rs5cmd.Storage.Url
import Rs5cmd.Storage.Object

/-!
# Running the transfers of `cp` and `mv` (`command/cp.rs`)

`run` spawns one `copy_one` for each expanded (source, destination) pair, at most
`workers` at a time. A transfer reads its source piece by piece while the others
go on; a local destination is truncated first and has some other content until
the transfer ends, a remote one is replaced at once when the upload or the copy
completes. `mv` then deletes the source.

A `World` holds the objects and the local files. A local file is identified by the
lexical location of its directory entry, which may be a symbolic link. The operating
system comes to the same entry as long as no directory on the way is a link, and an
entry is a file of its own as long as the file has no second name: `Lexical` states
both, and results about files on a disk take it as a condition.
-/

namespace Rs5cmd

open LexPath

/-! ## Objects and files -/

/-- Something that holds content: a version of an object (the current one has no
version id) in the first or in a second store, or a local directory entry. -/
inductive Cell where
  | object (second : Bool) (bucket key versionId : Str)
  | file (loc : Loc Name)
  deriving DecidableEq

inductive Content where
  | bytes (b : List UInt8)
  | link (target : Str)
  deriving DecidableEq

def Cell.isObject : Cell → Bool
  | .object .. => true
  | .file _ => false

abbrev World := Cell → Option Content

/-- A path, as the operating system follows it. -/
def targetOf (p : Str) : Target Name := ⟨Str.startsWith ['/'] p, segsOf p⟩

/-- The location a path names when it is interpreted in the directory `l`. -/
def locFrom (l : Loc Name) (p : Str) : Loc Name :=
  if Str.startsWith ['/'] p then locOf p else l.walk (segsOf p)

namespace World

/-- The target of the link at an entry. -/
def link (w : World) (l : Loc Name) : Option (Target Name) :=
  match w (.file l) with
  | some (.link t) => some (targetOf t)
  | _ => none

/-- Where a directory entry links to: the target text, read from its directory. -/
def next (w : World) (l : Loc Name) : Option (Loc Name) :=
  match w (.file l) with
  | some (.link t) => some (locFrom (l.climb 1) t)
  | _ => none

/-- How many links the operating system follows. -/
def maxLinks : Nat := 40

/-- The entry that opening a location ends at, when only that entry may be a link. -/
def resolve (w : World) (l : Loc Name) : Option (Loc Name) := Follow.follow w.next maxLinks l

/-- The entries that opening `l` goes through. -/
def chain (w : World) (l : Loc Name) : List (Loc Name) := Follow.chain w.next maxLinks l

/-- The bytes in a cell itself. -/
def bytesAt (w : World) (c : Cell) : Option (List UInt8) :=
  match w c with
  | some (.bytes b) => some b
  | _ => none

/-- Opening and reading, which follows links. -/
def read (w : World) : Cell → Option (List UInt8)
  | .file l => (w.resolve l).bind fun l' => w.bytesAt (.file l')
  | c => w.bytesAt c

/-- `is_symlink_path`. -/
def isSymlink (w : World) (c : Cell) : Bool :=
  match w c with
  | some (.link _) => true
  | _ => false

def set (w : World) (c : Cell) (v : Option Content) : World :=
  fun c' => if c' = c then v else w c'

end World

/-! ## One transfer -/

/-- `LINK_SUFFIX`. -/
def linkSuffix : Str := ".s5cmdlink".toList

/-- The branches of `copy_one`. -/
inductive Transfer where
  | copy
  | download
  | upload
  | fsCopy
  | uploadLink
  | downloadLink
  deriving DecidableEq, Repr

/-- The branches that write to a file while they read. -/
def Transfer.truncates : Transfer → Bool
  | .download | .fsCopy => true
  | _ => false

/-- What one `run` works on. All destinations come from one URL, so they are all
remote or all local. `sameStore` says whether the source and the destination
client reach the same objects; `cwd` is the working directory; `sameFile` says which
locations are names of one file (hard links). -/
structure Job where
  pairs : List (Url × Url)
  dstRemote : Bool
  pairs_dst : ∀ pr ∈ pairs, pr.2.isRemote = dstRemote
  isMove : Bool := false
  links : Bool := false
  dryRun : Bool := false
  workers : Nat := 1
  sameStore : Bool := true
  cwd : Str := ['/']
  sameFile : Loc Name → Loc Name → Bool := fun l m => l = m

namespace Job

/-- Whether two cells are names of one file. -/
def oneFile (job : Job) : Cell → Cell → Bool
  | .file l, .file m => job.sameFile l m
  | c, c' => c = c'

/-- The location a local path names lexically. -/
def fileLoc (job : Job) (p : Str) : Loc Name := locFrom (locOf job.cwd) p

/-- The object or directory entry a source URL names. -/
def srcCell (job : Job) (src : Url) : Cell :=
  if src.isRemote then .object false src.bucket src.path src.versionId else .file (job.fileLoc src.path)

/-- The branch `copy_one` takes. -/
def transferOf (job : Job) (w : World) (pr : Url × Url) : Transfer :=
  if job.links && !pr.1.isRemote && pr.2.isRemote && w.isSymlink (job.srcCell pr.1) then .uploadLink
  else if job.links && pr.1.isRemote && !pr.2.isRemote && Str.endsWithStr linkSuffix pr.1.path then
    .downloadLink
  else
    match pr.1.isRemote, pr.2.isRemote with
    | true, true => .copy
    | true, false => .download
    | false, true => .upload
    | false, false => .fsCopy

/-- Where a link is recreated: at the destination, with the suffix stripped from its
name. -/
def linkPath (dst : Url) : Str := (Str.stripSuffix linkSuffix dst.path).getD dst.path

/-- The cell a branch writes: a placeholder has the suffix appended to its key. -/
def dstCell (job : Job) (t : Transfer) (dst : Url) : Cell :=
  match t with
  | .copy | .upload => .object (!job.sameStore) dst.bucket dst.path []
  | .uploadLink => .object (!job.sameStore) dst.bucket (dst.path ++ linkSuffix) []
  | .download | .fsCopy => .file (job.fileLoc dst.path)
  | .downloadLink => .file (job.fileLoc (linkPath dst))

/-- What a branch transfers: the text of the link itself, or what can be read. -/
def content (w : World) (t : Transfer) (c : Cell) : Option (List UInt8) :=
  match t with
  | .uploadLink =>
    match w c with
    | some (.link target) => some (Utf8.encode target)
    | _ => none
  | _ => w.read c

/-- The path ends in the name of an entry. -/
def endsInName (p : Str) : Bool :=
  match (Str.split '/' p).getLast? with
  | some s => decide (IsName s)
  | none => false

/-- Putting bytes where a branch puts them; a file is opened through links. -/
def store (job : Job) (w : World) (t : Transfer) (dst : Url) (data : List UInt8) : Option World :=
  match t with
  | .copy | .upload | .uploadLink => some (w.set (job.dstCell t dst) (some (.bytes data)))
  | .download | .fsCopy =>
    (w.resolve (job.fileLoc dst.path)).map fun l => w.set (.file l) (some (.bytes data))
  | .downloadLink =>
    -- no link is made at a path that ends in a slash, in `.` or in `..`
    if endsInName (linkPath dst) then
      some (w.set (job.dstCell t dst) (some (.link (Utf8.decodeLossy data))))
    else none

/-- Where a transfer stands. `first` is the source as it was opened, `got` what
has been read of it. -/
inductive Phase where
  | start
  | copying (t : Transfer) (first got : List UInt8)
  | copied
  deriving DecidableEq

/-- What happens to a transfer: it goes on (begins, completes, deletes), or reads
up to `n` more bytes while a local destination holds `meanwhile`, or fails; a
failed request may still have been `applied`. -/
inductive Event where
  | go
  | read (n : Nat) (meanwhile : List UInt8)
  | fail (e : StorageError) (applied : Bool)

section Steps

variable (job : Job) (pr : Url × Url) (w : World)

/-- What is left to read of the source. A file that has been removed can still be
read by who has it open. -/
def rest (t : Transfer) (first got : List UInt8) : List UInt8 :=
  ((content w t (job.srcCell pr.1)).getD first).drop got.length

/-- What a failed transfer leaves: the entry a link was to replace may be gone,
and a failed upload or copy may have been applied. -/
def failed (t : Transfer) (first got : List UInt8) (applied : Bool) : World :=
  if applied then
    match t with
    | .download | .fsCopy => w
    | .downloadLink => if endsInName (linkPath pr.2) then w.set (job.dstCell t pr.2) none else w
    | .copy | .upload | .uploadLink =>
      if job.rest pr w t first got = [] then w.set (job.dstCell t pr.2) (some (.bytes got)) else w
  else w

/-- `copy_one`, one step at a time. -/
def copyOne : Phase → Event → World → Option (World × (Phase ⊕ Except StorageError Unit))
  | .start, .go, w =>
    if job.dryRun then some (w, .inr (.ok ()))
    else
      let t := job.transferOf w pr
      (content w t (job.srcCell pr.1)).map fun b => (w, .inl (.copying t b []))
  | .copying t first got, .read n meanwhile, w =>
    let got' := got ++ (job.rest pr w t first got).take n
    if t.truncates then
      (job.store w t pr.2 meanwhile).map fun w' => (w', .inl (.copying t first got'))
    else some (w, .inl (.copying t first got'))
  | .copying t first got, .go, w =>
    if job.rest pr w t first got = [] then
      (job.store w t pr.2 got).map fun w' =>
        (w', if job.isMove then .inl .copied else .inr (.ok ()))
    else none
  | .copied, .go, w => some (w.set (job.srcCell pr.1) none, .inr (.ok ()))
  | .start, .fail e _, w => some (w, .inr (.error e))
  | .copying t first got, .fail e applied, w =>
    some (job.failed pr w t first got applied, .inr (.error e))
  | .copied, .fail e applied, w =>
    some (if applied then w.set (job.srcCell pr.1) none else w, .inr (.error e))
  | .start, .read _ _, _ => none
  | .copied, .read _ _, _ => none

end Steps

/-- The worker pool of `run`. -/
def tasks (job : Job) : Tasks World Phase (Except StorageError Unit) Event where
  count := job.pairs.length
  limit := max job.workers 1
  start := fun _ => .start
  work := fun i ph e w =>
    match job.pairs[i]? with
    | some pr => job.copyOne pr ph e w
    | none => none

end Job

end Rs5cmd
