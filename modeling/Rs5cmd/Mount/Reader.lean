import Rs5cmd.Lib.Hoare
import Rs5cmd.Lib.Lru
import Rs5cmd.Storage.S3.Download

/-!
# The chunked reader (`mount/reader.rs`)

A read handle fetches its object in chunks, keeps the recent ones and fetches
ahead of sequential reads. The outcome of each ranged GET, and the order in which
the concurrent ones complete, is given by a `ReadEnv`. Arithmetic is that of
64-bit words: where it would leave them the reader fails with `overflow`.
-/

namespace Rs5cmd

/-- The errors of the reader. -/
inductive ReadError where
  | storage (e : StorageError)
  | chunkMissing (idx : Nat)
  | overflow
  deriving DecidableEq, Repr

/-- A sum or product of two words. -/
def u64 (n : Nat) : Except ReadError Nat := if n < 2 ^ 64 then .ok n else .error .overflow

/-- A difference of two words. -/
def u64Sub (a b : Nat) : Except ReadError Nat := if b ≤ a then .ok (a - b) else .error .overflow

theorem u64_of_lt {n : Nat} (h : n < 2 ^ 64) : u64 n = .ok n := if_pos h

theorem u64Sub_of_le {a b : Nat} (h : b ≤ a) : u64Sub a b = .ok (a - b) := if_pos h

structure ChunkReader where
  size : Nat
  chunkSize : Nat
  /-- Max chunks resident in the cache. -/
  maxChunks : Nat
  concurrency : Nat
  chunks : Std.ExtTreeMap Nat (List UInt8) compare := ∅
  /-- Least recently used chunk first. -/
  order : List Nat := []
  /-- End offset of the previous read. -/
  lastEnd : Nat := 0

/-- A ranged GET for a chunk: its index, its offset and its length. -/
structure ChunkRequest where
  idx : Nat
  start : Nat
  len : Nat
  deriving DecidableEq, Repr

/-- What a read's requests answer: `get` a byte range `(first, last)`. The requests
may complete in any order. -/
structure ReadEnv where
  get : Nat → Nat → Except GetError GetResponse
  completed : List ChunkRequest → List ChunkRequest := id
  completed_perm : ∀ reqs, (completed reqs).Perm reqs := by exact fun _ => List.Perm.refl _

/-- `S3::read_range`. -/
def readRange (env : ReadEnv) (offset len : Nat) : Except ReadError (List UInt8) :=
  if len = 0 then .ok []
  else do
    let stop ← u64 (offset + len)
    let last ← u64Sub stop 1
    match env.get offset last with
    | .error e => if isRangeNotSatisfiable e then .ok [] else .error (.storage e.err)
    | .ok resp => resp.body.collect.mapError .storage

namespace ChunkReader

def new (size chunkSize bufferSize concurrency : Nat) : ChunkReader :=
  let chunkSize := max chunkSize (64 * 1024)
  { size := size
    chunkSize := chunkSize
    maxChunks := max (bufferSize / chunkSize) 2
    concurrency := max concurrency 1 }

/-- `self.size.div_ceil(self.chunk_size)`. -/
def nChunks (r : ChunkReader) : Nat :=
  r.size / r.chunkSize + if 0 < r.size % r.chunkSize then 1 else 0

def chunkBounds (r : ChunkReader) (idx : Nat) : Except ReadError (Nat × Nat) := do
  let start ← u64 (idx * r.chunkSize)
  let next ← u64 (idx + 1)
  let stop ← u64 (next * r.chunkSize)
  return (start, min stop r.size)

/-- The requests for the given chunks. -/
def requests (r : ChunkReader) : List Nat → Except ReadError (List ChunkRequest)
  | [] => return []
  | idx :: idxs => do
    let (start, stop) ← r.chunkBounds idx
    let len ← u64Sub stop start
    return ⟨idx, start, len⟩ :: (← r.requests idxs)

/-- The data of the chunks in completion order, or the first error. -/
def collectChunks (env : ReadEnv) :
    List ChunkRequest → Except ReadError (List (Nat × List UInt8))
  | [] => return []
  | req :: reqs => do
    let data ← readRange env req.start req.len
    return (req.idx, data) :: (← collectChunks env reqs)

def fetchChunks (r : ChunkReader) (env : ReadEnv) (idxs : List Nat) :
    Except ReadError (List (Nat × List UInt8)) := do
  collectChunks env (env.completed (← r.requests idxs))

def touch (r : ChunkReader) (idx : Nat) : ChunkReader := { r with order := Lru.touch r.order idx }

/-- Keeps a chunk that has been fetched. -/
def store (r : ChunkReader) (e : Nat × List UInt8) : ChunkReader :=
  { r with chunks := r.chunks.insert e.1 e.2 }.touch e.1

def evict (r : ChunkReader) (keep : Nat → Bool) : ChunkReader :=
  let (chunks, order) := Lru.evict r.maxChunks keep r.order.length r.chunks r.order
  { r with chunks := chunks, order := order }

/-- Marks the chunks that cover a read most recently used and evicts others down to
the budget. -/
def settle (r : ChunkReader) (first last : Nat) : ChunkReader :=
  ((List.range' first (last + 1 - first)).foldl touch r).evict fun i => decide (first ≤ i ∧ i ≤ last)

/-- The end of the chunks a read asks for: those it covers, and on sequential access
a window ahead of them. -/
def wantEnd (r : ChunkReader) (offset first last : Nat) : Except ReadError Nat := do
  let next ← u64 (last + 1)
  let ahead ← u64 (first + r.maxChunks)
  let sequential := r.lastEnd = 0 ∨ offset = r.lastEnd
  let want := if sequential then max next ahead else next
  return max (min (min want ahead) r.nChunks) next

/-- The loop that assembles the bytes up to `stop`. -/
def assemble (r : ChunkReader) (stop pos : Nat) (out : List UInt8) : Except ReadError (List UInt8) :=
  if pos < stop then
    let idx := pos / r.chunkSize
    match r.chunkBounds idx with
    | .error e => .error e
    | .ok (cstart, _) =>
      match r.chunks[idx]? with
      | none => .error (.chunkMissing idx)
      | some chunk =>
        if pos < cstart then .error .overflow
        else
          let within := pos - cstart
          -- defensive: short object
          if chunk.length ≤ within then .ok out
          else
            let take := min (stop - pos) (chunk.length - within)
            if 2 ^ 64 ≤ pos + take then .error .overflow
            else r.assemble stop (pos + take) (out ++ (chunk.drop within).take take)
  else .ok out
  termination_by stop - pos

/-- Fetches and keeps those chunks of `[first, wantEnd)` that are not cached. -/
def fetchMissing (env : ReadEnv) (first wantEnd : Nat) : Cmd ChunkReader ReadError Unit := do
  let r ← Cmd.get
  let missing := (List.range' first (wantEnd - first)).filter fun i => !r.chunks.contains i
  if missing.isEmpty then pure ()
  else
    let fetched ← Cmd.ofExcept (r.fetchChunks env missing)
    Cmd.modify fun r => fetched.foldl store r

/-- Reads up to `len` bytes at `offset`. -/
def read (env : ReadEnv) (offset len : Nat) : Cmd ChunkReader ReadError (List UInt8) := do
  let r ← Cmd.get
  if r.size ≤ offset ∨ len = 0 then return []
  else
    let len := min len (r.size - offset)
    let stop ← Cmd.ofExcept (u64 (offset + len))
    let first := offset / r.chunkSize
    let last := (← Cmd.ofExcept (u64Sub stop 1)) / r.chunkSize
    let wantEnd ← Cmd.ofExcept (r.wantEnd offset first last)
    fetchMissing env first wantEnd
    Cmd.modify fun r => r.settle first last
    let r ← Cmd.get
    let out ← Cmd.ofExcept (r.assemble stop offset [])
    Cmd.modify fun r => { r with lastEnd := stop }
    return out

end ChunkReader

end Rs5cmd
