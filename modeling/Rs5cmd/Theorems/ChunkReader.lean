import Rs5cmd.Lib.Machine
import Rs5cmd.Mount.ReaderSpec

/-!
# The chunked reader refines the object

Whatever the sequence of reads, the order in which their requests complete and
which of them fail, a read that succeeds returns the bytes of the object, and the
cache stays within its budget or within what the last read that returned bytes
needed. A read of nothing evicts nothing.
-/

namespace Rs5cmd

namespace ChunkReader

variable {g : Geometry} {r : ChunkReader}

/-- A call of `read`, and what its requests answer. -/
structure ReadCall where
  offset : Nat
  len : Nat
  env : ReadEnv

/-- The chunks that a read spans. -/
def ReadCall.spanned (c : ReadCall) (r : ChunkReader) : Nat :=
  if r.size ≤ c.offset ∨ c.len = 0 then 0
  else (min (c.offset + c.len) r.size - 1) / r.chunkSize + 1 - c.offset / r.chunkSize

/-- What a call returns, and the reader after it. -/
def ReadCall.outcome (c : ReadCall) (r : ChunkReader) :
    Except ReadError (List UInt8) × ChunkReader :=
  read c.env c.offset c.len r

/-- A reader, and the number of chunks that the last read to return bytes spanned.
The latter is not part of the program. -/
structure Session where
  reader : ChunkReader
  lastSpan : Nat := 0

def Session.after (s : Session) (c : ReadCall) : Session where
  reader := (c.outcome s.reader).2
  lastSpan :=
    match (c.outcome s.reader).1 with
    | .ok (_ :: _) => c.spanned s.reader
    | _ => s.lastSpan

def Session.step (s : Session) (c : ReadCall) : Option Session := some (s.after c)

/-- What holds of a call, from whichever state it is made. -/
structure ReadCorrect (content : List UInt8) (s : Session) (c : ReadCall) : Prop where
  /-- The bytes `[offset, min (offset + len) size)`. -/
  bytes : ∀ data, (c.outcome s.reader).1 = .ok data →
    data = (content.take (min (c.offset + c.len) content.length)).drop c.offset
  /-- It fails only with an error of one of its requests: no chunk is missing after
  the fetch, and nothing overflows. -/
  errors : ∀ e, (c.outcome s.reader).1 = .error e → ∃ err, c.env.Fails err ∧ e = .storage err
  failed : ∀ e, (c.outcome s.reader).1 = .error e →
    (c.outcome s.reader).2.chunks = s.reader.chunks
  nodup : (s.after c).reader.order.Nodup
  perm : (s.after c).reader.order.Perm (s.after c).reader.chunks.keys
  budget : (s.after c).reader.chunks.size ≤ max s.reader.maxChunks (s.after c).lastSpan

/-- Between calls. -/
structure Session.Inv (g : Geometry) (s : Session) : Prop where
  coherent : s.reader.Coherent g
  budget : s.reader.chunks.size ≤ max g.maxChunks s.lastSpan

/-! ## One call -/

theorem ReadCall.spanned_eq (h : r.Coherent g) (c : ReadCall) :
    c.spanned r =
      if g.content.length ≤ c.offset ∨ c.len = 0 then 0
      else (readEnd g.content c.offset c.len - 1) / g.chunkSize + 1 - c.offset / g.chunkSize := by
  rw [ReadCall.spanned, h.size_eq, h.chunkSize_eq]
  rfl

/-- A call that returns `data` and leaves a reader within the given number of
chunks. -/
theorem correct_of_ok {s : Session} {c : ReadCall} {data : List UInt8} {r' : ChunkReader}
    (hs : s.Inv g) (hout : c.outcome s.reader = (.ok data, r')) (hr' : r'.Coherent g)
    (hdata : data = (g.content.take (min (c.offset + c.len) g.content.length)).drop c.offset)
    (hsize : r'.chunks.size ≤ max g.maxChunks (s.after c).lastSpan) :
    ReadCorrect g.content s c ∧ (s.after c).Inv g := by
  have hafter : (s.after c).reader = r' := congrArg Prod.snd hout
  refine ⟨⟨?_, ?_, ?_, ?_, ?_, ?_⟩, ⟨?_, ?_⟩⟩
  · intro d hd
    rw [hout] at hd
    obtain rfl : data = d := Except.ok.inj hd
    exact hdata
  · intro e he
    rw [hout] at he
    cases he
  · intro e he
    rw [hout] at he
    cases he
  · rw [hafter]
    exact hr'.tracks.nodup
  · rw [hafter]
    exact hr'.tracks.perm
  · rw [hafter, hs.coherent.maxChunks_eq]
    exact hsize
  · rw [hafter]
    exact hr'
  · rw [hafter]
    exact hsize

theorem call_correct {s : Session} (h : s.Inv g) {c : ReadCall} (henv : c.env.Serves g.content) :
    ReadCorrect g.content s c ∧ (s.after c).Inv g := by
  have hcoh := h.coherent
  by_cases hempty : g.content.length ≤ c.offset ∨ c.len = 0
  · -- nothing is read, and nothing evicted
    have hout : c.outcome s.reader = (.ok [], s.reader) := read_empty hcoh hempty
    have hspan : (s.after c).lastSpan = s.lastSpan := by
      show (match (c.outcome s.reader).1 with
        | .ok (_ :: _) => c.spanned s.reader
        | _ => s.lastSpan) = _
      rw [hout]
    refine correct_of_ok h hout hcoh ?_ (hspan ▸ h.budget)
    rw [eq_comm, List.drop_eq_nil_iff, List.length_take]
    omega
  · have hoffset : c.offset < g.content.length ∧ c.len ≠ 0 := by omega
    rcases read_spec hcoh henv hoffset.1 hoffset.2 with ⟨r', hout, hr', hsize, -⟩ | ⟨e, hfails, hout⟩
    · have hdata : (g.content.drop c.offset).take (readEnd g.content c.offset c.len - c.offset) =
          (g.content.take (min (c.offset + c.len) g.content.length)).drop c.offset := by
        rw [List.drop_take]
        rfl
      rw [hdata] at hout
      refine correct_of_ok h hout hr' rfl ?_
      have hlen : ((g.content.take (min (c.offset + c.len) g.content.length)).drop
          c.offset).length ≠ 0 := by
        rw [List.length_drop, List.length_take]
        omega
      have hspan : (s.after c).lastSpan = c.spanned s.reader := by
        show (match (c.outcome s.reader).1 with
          | .ok (_ :: _) => c.spanned s.reader
          | _ => s.lastSpan) = _
        rw [show c.outcome s.reader = _ from hout]
        split
        · rfl
        · rename_i hnil
          obtain ⟨b, bs, hbs⟩ := List.exists_cons_of_length_pos (Nat.pos_of_ne_zero hlen)
          exact absurd (congrArg Except.ok hbs) (hnil b bs)
      rw [hspan, ReadCall.spanned_eq hcoh, if_neg hempty]
      exact hsize
    · -- a failed read changes nothing
      have hout : c.outcome s.reader = (.error (.storage e), s.reader) := hout
      have hafter : s.after c = s := by
        rw [Session.after, hout]
      refine ⟨⟨?_, ?_, ?_, ?_, ?_, ?_⟩, hafter.symm ▸ h⟩
      · intro d hd
        rw [hout] at hd
        cases hd
      · intro e' he
        rw [hout] at he
        exact ⟨e, hfails, (Except.error.inj he).symm⟩
      · intro e' _
        rw [hout]
      · rw [hafter]
        exact hcoh.tracks.nodup
      · rw [hafter]
        exact hcoh.tracks.perm
      · rw [hafter, hcoh.maxChunks_eq]
        exact h.budget

/-! ## Sequences of calls -/

/-- The sizes of a new reader. -/
def newGeometry (content : List UInt8) (chunkSize bufferSize : Nat) (hcontent : content.length < 2 ^ 63)
    (hchunk : chunkSize < 2 ^ 64) (hbuffer : bufferSize < 2 ^ 64) : Geometry where
  content := content
  chunkSize := max chunkSize (64 * 1024)
  maxChunks := max (bufferSize / max chunkSize (64 * 1024)) 2
  content_lt := hcontent
  le_chunkSize := Nat.le_max_right _ _
  chunkSize_lt := by omega
  maxChunks_lt := by
    have hdiv : bufferSize / max chunkSize (64 * 1024) ≤ bufferSize / (64 * 1024) :=
      Nat.div_le_div_left (Nat.le_max_right _ _) (by decide)
    omega

theorem new_inv {content : List UInt8} {chunkSize bufferSize : Nat} (concurrency : Nat)
    (hcontent : content.length < 2 ^ 63) (hchunk : chunkSize < 2 ^ 64) (hbuffer : bufferSize < 2 ^ 64) :
    Session.Inv (newGeometry content chunkSize bufferSize hcontent hchunk hbuffer)
      { reader := new content.length chunkSize bufferSize concurrency } where
  coherent := by
    refine ⟨rfl, rfl, rfl, Lru.tracks_empty, ?_⟩
    intro i d hd
    simp [new] at hd
  budget := by simp [new]

/-- **The chunked reader refines the object.** For every object, chunk size, buffer
size and sequence of reads whose successful requests return the bytes asked for,
every call is correct: in any order of completion and with any failures. -/
theorem chunk_reader_refines (content : List UInt8) (hcontent : content.length < 2 ^ 63)
    (chunkSize bufferSize concurrency : Nat) (hchunk : chunkSize < 2 ^ 63)
    (hbuffer : bufferSize < 2 ^ 64) (calls : List ReadCall)
    (hserves : ∀ c ∈ calls, c.env.Serves content) :
    Machine.Along Session.step (ReadCorrect content)
      { reader := new content.length chunkSize bufferSize concurrency } calls := by
  have hword : chunkSize < 2 ^ 64 := by omega
  have hC : Machine.Along Session.step (fun _ c => ReadEnv.Serves c.env content)
      { reader := new content.length chunkSize bufferSize concurrency } calls :=
    Machine.along_of_mem _ hserves
  refine hC.mono_of_invariant
    (I := Session.Inv (newGeometry content chunkSize bufferSize hcontent hword hbuffer)) ?_ ?_
    (new_inv concurrency hcontent hword hbuffer)
  · intro s c s' hs henv hs'
    obtain rfl := Option.some.inj hs'
    exact (call_correct hs henv).2
  · intro s c hs henv
    exact (call_correct hs henv).1

end ChunkReader

/-! ## Concrete reads -/

/-- A server that answers every range from the object. -/
def ReadEnv.exactly (content : List UInt8) : ReadEnv where
  get first last := .ok
    { contentRange := none, contentLength := none
      body := { chunks := [(content.drop first).take (last + 1 - first)] } }

theorem ReadEnv.exactly_serves (content : List UInt8) : (ReadEnv.exactly content).Serves content := by
  refine ⟨?_, ?_⟩
  · intro first last resp data _ _ hget hbody
    obtain rfl := Except.ok.inj hget
    exact (by simpa [Body.collect] using hbody.symm)
  · intro first last e _ _ hget
    cases hget

theorem ReadEnv.exactly_not_fails (content : List UInt8) (e : StorageError) :
    ¬ (ReadEnv.exactly content).Fails e := by
  rintro ⟨first, last, ⟨err, hget, -⟩ | ⟨resp, hget, hbody⟩⟩
  · cases hget
  · obtain rfl := Except.ok.inj hget
    cases hbody

namespace ChunkReader

/-- All the chunks that a read spans are cached after it. -/
theorem spanned_le_size {s : Session} (h : s.Inv g) {c : ReadCall} (henv : c.env.Serves g.content)
    (hreliable : ∀ e, ¬ c.env.Fails e) (hoffset : c.offset < g.content.length) (hlen : c.len ≠ 0) :
    c.spanned s.reader ≤ (s.after c).reader.chunks.size := by
  rcases read_spec h.coherent henv hoffset hlen with ⟨r', hout, hr', -, hcached⟩ | ⟨e, hfails, -⟩
  · have hafter : (s.after c).reader = r' := congrArg Prod.snd hout
    rw [hafter, hr'.tracks.size_eq, ReadCall.spanned_eq h.coherent, if_neg (by omega)]
    generalize hstop : readEnd g.content c.offset c.len = stop at hcached
    have hsub : List.range' (c.offset / g.chunkSize)
        ((stop - 1) / g.chunkSize + 1 - c.offset / g.chunkSize) ⊆ r'.order := by
      intro i hi
      rw [List.mem_range'_1] at hi
      -- a position of the read in chunk `i`
      have hpos : max c.offset (i * g.chunkSize) / g.chunkSize = i := by
        refine Nat.div_eq_of_lt_le ?_ ?_
        · exact Nat.le_max_right _ _
        · have hlt : c.offset < (c.offset / g.chunkSize + 1) * g.chunkSize :=
            Nat.lt_mul_of_div_lt (Nat.lt_succ_self _) g.chunkSize_pos
          have hle : (c.offset / g.chunkSize + 1) * g.chunkSize ≤ (i + 1) * g.chunkSize :=
            Nat.mul_le_mul_right _ (by omega)
          have hnext := Nat.add_mul i 1 g.chunkSize
          have := g.chunkSize_pos
          omega
      have hbelow : i * g.chunkSize ≤ stop - 1 := by
        refine le_trans (Nat.mul_le_mul_right _ (by omega : i ≤ (stop - 1) / g.chunkSize)) ?_
        exact Nat.div_mul_le_self _ _
      have hrange : c.offset < stop := by
        rw [← hstop, readEnd]
        omega
      have hin := hcached (max c.offset (i * g.chunkSize)) (Nat.le_max_left _ _) (by omega)
      rw [hpos] at hin
      exact (hr'.tracks.mem_iff i).mpr hin
    have hnodup : (List.range' (c.offset / g.chunkSize)
        ((stop - 1) / g.chunkSize + 1 - c.offset / g.chunkSize)).Nodup := List.nodup_range'
    have hle := (hnodup.subperm hsub).length_le
    rwa [List.length_range'] at hle
  · exact absurd hfails (hreliable e)

/-- An object of five chunks is read whole, and then nothing at its end. -/
def wideReads (content : List UInt8) : List ReadCall :=
  [⟨0, 5 * 65536, .exactly content⟩, ⟨5 * 65536, 1, .exactly content⟩]

theorem wideReads_serves {content : List UInt8} :
    ∀ c ∈ wideReads content, c.env.Serves content := by
  intro c hc
  have henv : c.env = .exactly content := by
    simp only [wideReads, List.mem_cons, List.not_mem_nil, or_false] at hc
    rcases hc with rfl | rfl <;> rfl
  rw [henv]
  exact ReadEnv.exactly_serves _

/-- After the second read five chunks are cached. -/
theorem wideReads_excess {content : List UInt8} (hlen : content.length = 5 * 65536) :
    ¬ Machine.Along Session.step
      (fun s c => (s.after c).reader.chunks.size ≤ max s.reader.maxChunks (c.spanned s.reader))
      { reader := new content.length 65536 131072 1 } (wideReads content) := by
  intro halong
  have hinv := new_inv 1 (by omega : content.length < 2 ^ 63) (by decide : 65536 < 2 ^ 64)
    (by decide : 131072 < 2 ^ 64)
  have hserves := ReadEnv.exactly_serves content
  -- the first read caches the five chunks it spans
  have hwide := spanned_le_size hinv (c := ⟨0, 5 * 65536, .exactly content⟩) hserves
    (ReadEnv.exactly_not_fails content) (show 0 < content.length by omega)
    (show 5 * 65536 ≠ 0 by decide)
  have hfive : ReadCall.spanned ⟨0, 5 * 65536, .exactly content⟩
      (new content.length 65536 131072 1) = 5 := by
    rw [hlen, ReadCall.spanned]
    simp [new]
  rw [hfive] at hwide
  obtain ⟨-, hsecond⟩ := halong
  obtain ⟨hbound, -⟩ := hsecond _ rfl
  have hinv' := (call_correct hinv (c := ⟨0, 5 * 65536, .exactly content⟩) hserves).2
  generalize hs : Session.after { reader := new content.length 65536 131072 1 }
    ⟨0, 5 * 65536, .exactly content⟩ = s at hwide hbound hinv'
  -- the second one returns at once
  have hempty : content.length ≤ 5 * 65536 ∨ (1 : Nat) = 0 := Or.inl (by omega)
  have hafter : (s.after ⟨5 * 65536, 1, .exactly content⟩).reader = s.reader :=
    congrArg Prod.snd (read_empty hinv'.coherent hempty)
  have hnone : ReadCall.spanned ⟨5 * 65536, 1, .exactly content⟩ s.reader = 0 := by
    rw [ReadCall.spanned_eq hinv'.coherent]
    exact if_pos hempty
  have hmax : s.reader.maxChunks = 2 := hinv'.coherent.maxChunks_eq
  rw [hafter, hnone, hmax] at hbound
  omega

/-- An object of five chunks of 64 KiB. -/
def fiveChunks : List UInt8 := List.replicate (5 * 65536) 0

/-- A read of four chunks from the end of the first on, and one past the end. -/
def longReads (content : List UInt8) : List ReadCall :=
  [⟨65535, 3 * 65536, .exactly content⟩, ⟨5 * 65536 - 1, 10, .exactly content⟩]

/-- The first read takes more than the budget of two chunks. -/
theorem chunk_reader_refines_long :
    Machine.Along Session.step (ReadCorrect fiveChunks)
      { reader := new fiveChunks.length 65536 131072 4 } (longReads fiveChunks) := by
  have hlen : fiveChunks.length = 5 * 65536 := List.length_replicate
  refine chunk_reader_refines fiveChunks (by rw [hlen]; decide) 65536 131072 4 (by decide)
    (by decide) (longReads fiveChunks) ?_
  generalize fiveChunks = content
  intro c hc
  have henv : c.env = .exactly content := by
    simp only [longReads, List.mem_cons, List.not_mem_nil, or_false] at hc
    rcases hc with rfl | rfl <;> rfl
  rw [henv]
  exact ReadEnv.exactly_serves _

/-- Five chunks stay cached, with a budget of two and a last read that spans none. -/
theorem empty_read_keeps_excess :
    (∀ c ∈ wideReads fiveChunks, c.env.Serves fiveChunks) ∧
    ¬ Machine.Along Session.step
      (fun s c => (s.after c).reader.chunks.size ≤ max s.reader.maxChunks (c.spanned s.reader))
      { reader := new fiveChunks.length 65536 131072 1 } (wideReads fiveChunks) :=
  ⟨wideReads_serves, wideReads_excess List.length_replicate⟩

end ChunkReader

end Rs5cmd
