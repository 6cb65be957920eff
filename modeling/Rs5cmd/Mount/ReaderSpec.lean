import Rs5cmd.Lib.Maps
import Rs5cmd.Mount.Reader

/-!
# What the chunked reader keeps

A reader is coherent with an object when every cached chunk holds the bytes of the
object at its place and the recency order lists exactly the cached chunks. Each
step of a read keeps this, and none of them leaves the 64-bit words.
-/

namespace Rs5cmd

/-- An object and the sizes a reader works with. -/
structure Geometry where
  content : List UInt8
  chunkSize : Nat
  maxChunks : Nat
  content_lt : content.length < 2 ^ 63
  le_chunkSize : 64 * 1024 ≤ chunkSize
  chunkSize_lt : chunkSize < 2 ^ 64
  maxChunks_lt : maxChunks < 2 ^ 63

namespace Geometry

variable (g : Geometry)

/-- The bytes of chunk `i`. -/
def chunk (i : Nat) : List UInt8 := (g.content.drop (i * g.chunkSize)).take g.chunkSize

/-- The object has bytes in chunk `i`. -/
def Has (i : Nat) : Prop := i * g.chunkSize < g.content.length

/-- The request for chunk `i`. -/
def request (i : Nat) : ChunkRequest :=
  ⟨i, i * g.chunkSize, min ((i + 1) * g.chunkSize) g.content.length - i * g.chunkSize⟩

theorem chunkSize_pos : 0 < g.chunkSize := by
  have := g.le_chunkSize
  omega

variable {g}

theorem has_div {pos : Nat} (h : pos < g.content.length) : g.Has (pos / g.chunkSize) :=
  Nat.lt_of_le_of_lt (Nat.div_mul_le_self pos g.chunkSize) h

theorem Has.lt {i : Nat} (h : g.Has i) : i < 2 ^ 63 := by
  have hpos := g.chunkSize_pos
  have hle : i * 1 ≤ i * g.chunkSize := Nat.mul_le_mul_left i hpos
  have hlt := g.content_lt
  have hi : i * g.chunkSize < g.content.length := h
  omega

theorem length_chunk (i : Nat) :
    (g.chunk i).length = min g.chunkSize (g.content.length - i * g.chunkSize) := by
  simp [chunk]

end Geometry

/-- A successful ranged GET within the object returns exactly the requested bytes,
and a range within the object can be satisfied. -/
structure ReadEnv.Serves (env : ReadEnv) (content : List UInt8) : Prop where
  exact : ∀ first last resp data, first ≤ last → last < content.length →
    env.get first last = .ok resp → resp.body.collect = .ok data →
      data = (content.drop first).take (last + 1 - first)
  satisfiable : ∀ first last e, first ≤ last → last < content.length →
    env.get first last = .error e → isRangeNotSatisfiable e = false

/-- One of the requests fails with `e`, or its body does. -/
def ReadEnv.Fails (env : ReadEnv) (e : StorageError) : Prop :=
  ∃ first last, (∃ err, env.get first last = .error err ∧ err.err = e) ∨
    ∃ resp, env.get first last = .ok resp ∧ resp.body.collect = .error e

/-- A computation that returns `a`, or fails because one of the requests does. -/
def ReadEnv.Fetched {α : Type} (env : ReadEnv) (x : Except ReadError α) (a : α) : Prop :=
  x = .ok a ∨ ∃ e, env.Fails e ∧ x = .error (.storage e)

namespace ChunkReader

/-- The reader caches chunks of the object, and its order lists them. -/
structure Coherent (g : Geometry) (r : ChunkReader) : Prop where
  size_eq : r.size = g.content.length
  chunkSize_eq : r.chunkSize = g.chunkSize
  maxChunks_eq : r.maxChunks = g.maxChunks
  tracks : Lru.Tracks r.chunks r.order
  data : ∀ (i : Nat) (d : List UInt8), r.chunks[i]? = some d → g.Has i ∧ d = g.chunk i

variable {g : Geometry} {r : ChunkReader} {env : ReadEnv}

/-! ## Arithmetic -/

theorem lt_nChunks_iff (h : r.Coherent g) {i : Nat} : i < r.nChunks ↔ g.Has i := by
  have hpos := g.chunkSize_pos
  unfold nChunks Geometry.Has
  rw [h.size_eq, h.chunkSize_eq]
  have hdiv := Nat.div_add_mod g.content.length g.chunkSize
  have hmod := Nat.mod_lt g.content.length hpos
  generalize g.content.length / g.chunkSize = q at hdiv ⊢
  generalize g.content.length % g.chunkSize = m at hdiv hmod ⊢
  rw [← hdiv, Nat.mul_comm i]
  constructor
  · intro hi
    split at hi
    · have hle : g.chunkSize * i ≤ g.chunkSize * q := Nat.mul_le_mul_left _ (by omega)
      omega
    · have hle : g.chunkSize * (i + 1) ≤ g.chunkSize * q := Nat.mul_le_mul_left _ (by omega)
      rw [Nat.mul_add] at hle
      omega
  · intro hi
    by_contra hge
    split at hge
    · have hle : g.chunkSize * (q + 1) ≤ g.chunkSize * i := Nat.mul_le_mul_left _ (by omega)
      rw [Nat.mul_add] at hle
      omega
    · have hle : g.chunkSize * q ≤ g.chunkSize * i := Nat.mul_le_mul_left _ (by omega)
      omega

/-- The bounds of a chunk of the object do not overflow. -/
theorem chunkBounds_ok (h : r.Coherent g) {i : Nat} (hi : g.Has i) :
    r.chunkBounds i =
      .ok (i * g.chunkSize, min ((i + 1) * g.chunkSize) g.content.length) := by
  have hlt := g.content_lt
  have hc := g.chunkSize_lt
  have hi' : i * g.chunkSize < g.content.length := hi
  have hidx := hi.lt
  have hstop : (i + 1) * g.chunkSize < 2 ^ 64 := by
    rw [Nat.add_mul]
    rcases Nat.eq_zero_or_pos i with rfl | hpos
    · omega
    · have hle : 1 * g.chunkSize ≤ i * g.chunkSize := Nat.mul_le_mul_right _ hpos
      omega
  unfold chunkBounds
  rw [h.chunkSize_eq, u64_of_lt (by omega), u64_of_lt (by omega), h.size_eq]
  show (u64 ((i + 1) * g.chunkSize) >>= fun stop =>
    pure (i * g.chunkSize, min stop g.content.length)) = _
  rw [u64_of_lt hstop]
  rfl

/-- The window covers the chunks of the read and ends within the object. -/
theorem wantEnd_ok (h : r.Coherent g) (offset : Nat) {first last : Nat} (hfirst : first ≤ last)
    (hlast : g.Has last) :
    ∃ w, r.wantEnd offset first last = .ok w ∧ last < w ∧ ∀ i, i < w → g.Has i := by
  have hidx := hlast.lt
  have hmax := g.maxChunks_lt
  have hn := (lt_nChunks_iff h).mpr hlast
  unfold wantEnd
  rw [h.maxChunks_eq, u64_of_lt (by omega)]
  show ∃ w, (u64 (first + g.maxChunks) >>= fun ahead => pure _) = _ ∧ _
  rw [u64_of_lt (by omega)]
  refine ⟨_, rfl, ?_, ?_⟩
  · exact Nat.lt_of_lt_of_le (Nat.lt_succ_self last) (Nat.le_max_right _ _)
  · intro i hi
    refine (lt_nChunks_iff h).mp ?_
    rcases lt_max_iff.mp hi with hlt | hlt
    · exact Nat.lt_of_lt_of_le hlt (Nat.min_le_right _ _)
    · omega

/-! ## Fetching -/

theorem requests_ok (h : r.Coherent g) {idxs : List Nat} (hidxs : ∀ i ∈ idxs, g.Has i) :
    r.requests idxs = .ok (idxs.map g.request) := by
  induction idxs with
  | nil => rfl
  | cons i idxs ih =>
    have hi : g.Has i := hidxs i List.mem_cons_self
    have hle : i * g.chunkSize ≤ min ((i + 1) * g.chunkSize) g.content.length := by
      have hlt : i * g.chunkSize < g.content.length := hi
      rw [Nat.add_mul]
      omega
    unfold requests
    rw [chunkBounds_ok h hi, ih fun j hj => hidxs j (List.mem_cons_of_mem i hj)]
    show (u64Sub _ (i * g.chunkSize) >>= fun len => pure _) = _
    rw [u64Sub_of_le hle]
    rfl

/-- The request for a chunk returns its bytes or fails in the storage. -/
theorem readRange_request (henv : env.Serves g.content) {i : Nat} (hi : g.Has i) :
    env.Fetched (readRange env (g.request i).start (g.request i).len) (g.chunk i) := by
  have hlt := g.content_lt
  have hi' : i * g.chunkSize < g.content.length := hi
  have hpos := g.chunkSize_pos
  have hlen : (g.request i).len = min g.chunkSize (g.content.length - i * g.chunkSize) := by
    show min ((i + 1) * g.chunkSize) g.content.length - i * g.chunkSize = _
    rw [Nat.add_mul]
    omega
  have hstart : (g.request i).start = i * g.chunkSize := rfl
  have hchunk : g.chunk i = (g.content.drop (i * g.chunkSize)).take (g.request i).len := by
    rw [Geometry.chunk, hlen, List.take_eq_take_iff, List.length_drop]
    omega
  unfold readRange
  rw [if_neg (by omega), hstart, u64_of_lt (by omega)]
  show env.Fetched (u64Sub (i * g.chunkSize + (g.request i).len) 1 >>= fun last => _) _
  rw [u64Sub_of_le (by omega)]
  simp only [bind, Except.bind]
  cases hget : env.get (i * g.chunkSize) (i * g.chunkSize + (g.request i).len - 1) with
  | error e =>
    have hsat := henv.satisfiable _ _ e (by omega) (by omega) hget
    simp only [hsat]
    exact Or.inr ⟨e.err, ⟨_, _, Or.inl ⟨e, hget, rfl⟩⟩, rfl⟩
  | ok resp =>
    cases hbody : resp.body.collect with
    | error e => exact Or.inr ⟨e, ⟨_, _, Or.inr ⟨resp, hget, hbody⟩⟩, by simp [hbody, Except.mapError]⟩
    | ok data =>
      have hdata := henv.exact _ _ resp data (by omega) (by omega) hget hbody
      have hsame : i * g.chunkSize + (g.request i).len - 1 + 1 - i * g.chunkSize =
          (g.request i).len := by omega
      rw [hsame, ← hchunk] at hdata
      refine Or.inl ?_
      simp only [hbody, Except.mapError, hdata]

theorem collectChunks_map (henv : env.Serves g.content) {idxs : List Nat}
    (hidxs : ∀ i ∈ idxs, g.Has i) :
    env.Fetched (collectChunks env (idxs.map g.request)) (idxs.map fun i => (i, g.chunk i)) := by
  induction idxs with
  | nil => exact Or.inl rfl
  | cons i idxs ih =>
    rw [List.map_cons, collectChunks]
    rcases readRange_request henv (hidxs i List.mem_cons_self) with hok | ⟨e, hfails, he⟩
    · rw [hok]
      rcases ih fun j hj => hidxs j (List.mem_cons_of_mem i hj) with hrest | ⟨e, hfails, he⟩
      · rw [hrest]
        exact Or.inl rfl
      · rw [he]
        exact Or.inr ⟨e, hfails, rfl⟩
    · rw [he]
      exact Or.inr ⟨e, hfails, rfl⟩

/-- The order in which the requests for the given chunks complete. -/
def completionOrder (g : Geometry) (env : ReadEnv) (idxs : List Nat) : List Nat :=
  (env.completed (idxs.map g.request)).map ChunkRequest.idx

theorem completionOrder_perm (g : Geometry) (env : ReadEnv) (idxs : List Nat) :
    (completionOrder g env idxs).Perm idxs := by
  have hback := (env.completed_perm (idxs.map g.request)).map ChunkRequest.idx
  rw [List.map_map] at hback
  simpa [completionOrder, Function.comp_def, Geometry.request] using hback

/-- The chunks asked for arrive, in the order in which they complete, or the fetch
fails. -/
theorem fetchChunks_spec (h : r.Coherent g) (henv : env.Serves g.content) {idxs : List Nat}
    (hidxs : ∀ i ∈ idxs, g.Has i) :
    env.Fetched (r.fetchChunks env idxs)
      ((completionOrder g env idxs).map fun i => (i, g.chunk i)) := by
  have hmap : (completionOrder g env idxs).map g.request = env.completed (idxs.map g.request) := by
    rw [completionOrder, List.map_map]
    refine (List.map_congr_left ?_).trans (List.map_id _)
    intro req hreq
    obtain ⟨i, -, rfl⟩ := List.mem_map.mp ((env.completed_perm _).mem_iff.mp hreq)
    rfl
  unfold fetchChunks
  rw [requests_ok h hidxs]
  show env.Fetched (collectChunks env (env.completed (idxs.map g.request))) _
  rw [← hmap]
  exact collectChunks_map henv fun i hi =>
    hidxs i ((completionOrder_perm g env idxs).mem_iff.mp hi)

/-! ## The cache -/

theorem Coherent.store (h : r.Coherent g) {i : Nat} (hi : g.Has i) :
    (r.store (i, g.chunk i)).Coherent g := by
  refine ⟨h.size_eq, h.chunkSize_eq, h.maxChunks_eq, h.tracks.insert i (g.chunk i), ?_⟩
  intro j d hj
  have hget : (r.chunks.insert i (g.chunk i))[j]? = some d := hj
  rw [Maps.getElem?_insert_eq] at hget
  split at hget
  · rename_i heq
    subst heq
    exact ⟨hi, (Option.some.inj hget).symm⟩
  · exact h.data j d hget

/-- Keeping the fetched chunks: nothing is lost and all of them are there. -/
theorem Coherent.foldl_store (h : r.Coherent g) {done : List Nat} (hdone : ∀ i ∈ done, g.Has i) :
    ((done.map fun i => (i, g.chunk i)).foldl ChunkReader.store r).Coherent g ∧
      ∀ i, i ∈ r.chunks ∨ i ∈ done →
        i ∈ ((done.map fun i => (i, g.chunk i)).foldl ChunkReader.store r).chunks := by
  induction done generalizing r with
  | nil => exact ⟨h, fun i hi => by simpa using hi⟩
  | cons j done ih =>
    have hj := hdone j List.mem_cons_self
    obtain ⟨hcoh, hmem⟩ := ih (h.store hj) fun i hi => hdone i (List.mem_cons_of_mem j hi)
    refine ⟨hcoh, ?_⟩
    intro i hi
    refine hmem i ?_
    by_cases hij : i = j
    · subst hij
      exact Or.inl (Std.ExtTreeMap.mem_insert_self)
    · rcases hi with hi | hi
      · exact Or.inl (Std.ExtTreeMap.mem_insert.mpr (Or.inr hi))
      · exact Or.inr ((List.mem_cons.mp hi).resolve_left hij)

theorem Coherent.touch (h : r.Coherent g) {i : Nat} (hi : i ∈ r.chunks) : (r.touch i).Coherent g :=
  ⟨h.size_eq, h.chunkSize_eq, h.maxChunks_eq, h.tracks.touch hi, h.data⟩

theorem Coherent.foldl_touch (h : r.Coherent g) {idxs : List Nat} (hidxs : ∀ i ∈ idxs, i ∈ r.chunks) :
    (idxs.foldl ChunkReader.touch r).Coherent g ∧
      (idxs.foldl ChunkReader.touch r).chunks = r.chunks := by
  induction idxs generalizing r with
  | nil => exact ⟨h, rfl⟩
  | cons i idxs ih =>
    exact ih (h.touch (hidxs i List.mem_cons_self)) fun j hj => hidxs j (List.mem_cons_of_mem i hj)

/-- Eviction keeps what the read needs and goes down to the budget, or to what the
read needs. -/
theorem Coherent.evict (h : r.Coherent g) (keep : Nat → Bool) {needed : List Nat}
    (hneeded : ∀ i, keep i = true → i ∈ needed) :
    (r.evict keep).Coherent g ∧
      (r.evict keep).chunks.size ≤ max g.maxChunks needed.length ∧
      ∀ i, keep i = true → i ∈ r.chunks → i ∈ (r.evict keep).chunks := by
  have hspec := Lru.evict_spec r.maxChunks keep r.order.length h.tracks
  have hsize := Lru.size_evict_le r.maxChunks hneeded h.tracks
  rw [h.maxChunks_eq] at hsize
  refine ⟨⟨h.size_eq, h.chunkSize_eq, h.maxChunks_eq, hspec.tracks, ?_⟩, ?_, ?_⟩
  · intro i d hd
    exact h.data i d (hspec.sub i d hd)
  · simpa only [ChunkReader.evict, h.maxChunks_eq] using hsize
  · intro i hkeep hi
    have hsame := hspec.kept i hkeep
    rw [Std.ExtTreeMap.mem_iff_isSome_getElem?] at hi ⊢
    show ((Lru.evict r.maxChunks keep r.order.length r.chunks r.order).1[i]?).isSome = true
    rw [hsame]
    exact hi

theorem Coherent.settle (h : r.Coherent g) (first last : Nat)
    (hin : ∀ i, first ≤ i → i ≤ last → i ∈ r.chunks) :
    (r.settle first last).Coherent g ∧
      (r.settle first last).chunks.size ≤ max g.maxChunks (last + 1 - first) ∧
      ∀ i, first ≤ i → i ≤ last → i ∈ (r.settle first last).chunks := by
  have hmem : ∀ i, i ∈ List.range' first (last + 1 - first) ↔ first ≤ i ∧ i ≤ last := by
    intro i
    rw [List.mem_range'_1]
    omega
  obtain ⟨htouched, hchunks⟩ := h.foldl_touch fun i hi =>
    hin i ((hmem i).mp hi).1 ((hmem i).mp hi).2
  obtain ⟨hevicted, hsize, hkept⟩ := htouched.evict (fun i => decide (first ≤ i ∧ i ≤ last))
    fun i hi => (hmem i).mpr (of_decide_eq_true hi)
  rw [List.length_range'] at hsize
  refine ⟨hevicted, hsize, ?_⟩
  intro i hlo hhi
  refine hkept i (decide_eq_true ⟨hlo, hhi⟩) ?_
  rw [hchunks]
  exact hin i hlo hhi

theorem foldl_touch_order (idxs : List Nat) (r : ChunkReader) :
    (idxs.foldl ChunkReader.touch r).order = idxs.foldl Lru.touch r.order := by
  induction idxs generalizing r with
  | nil => rfl
  | cons i idxs ih => exact ih _

/-- What is left of the recency order. -/
theorem Coherent.settle_order (h : r.Coherent g) {first last : Nat}
    (hin : ∀ i, first ≤ i → i ≤ last → i ∈ r.chunks) {order : List Nat}
    (horder : (List.range' first (last + 1 - first)).foldl Lru.touch r.order = order) :
    (r.settle first last).order =
      Lru.evictKeys g.maxChunks (fun i => decide (first ≤ i ∧ i ≤ last)) order.length order := by
  have hcached : ∀ i ∈ List.range' first (last + 1 - first), i ∈ r.chunks := by
    intro i hi
    rw [List.mem_range'_1] at hi
    exact hin i (by omega) (by omega)
  obtain ⟨htouched, -⟩ := h.foldl_touch hcached
  have hsnd := Lru.evict_snd g.maxChunks (fun i => decide (first ≤ i ∧ i ≤ last))
    order.length htouched.tracks
  rw [foldl_touch_order, horder] at hsnd
  rw [← hsnd, ChunkReader.settle, ChunkReader.evict, htouched.maxChunks_eq, foldl_touch_order, horder]

/-! ## Assembling -/

/-- From a cached chunk the loop takes the bytes of the object. -/
theorem chunk_take {pos n : Nat} (hn : n ≤ g.chunkSize - pos % g.chunkSize) :
    ((g.chunk (pos / g.chunkSize)).drop (pos - pos / g.chunkSize * g.chunkSize)).take n =
      (g.content.drop pos).take n := by
  have hdiv : pos / g.chunkSize * g.chunkSize + pos % g.chunkSize = pos := Nat.div_add_mod' _ _
  have hwithin : pos - pos / g.chunkSize * g.chunkSize = pos % g.chunkSize := by omega
  rw [Geometry.chunk, hwithin, List.drop_take, List.take_take, List.drop_drop, hdiv,
    Nat.min_eq_left hn]

/-- One round of the loop takes what the chunk has of the range. -/
theorem assemble_step (h : r.Coherent g) {stop pos : Nat} (hstop : stop ≤ g.content.length)
    (hpos : pos < stop) (hcached : pos / g.chunkSize ∈ r.chunks) (out : List UInt8) :
    ∃ n, 0 < n ∧ pos + n ≤ stop ∧
      r.assemble stop pos out = r.assemble stop (pos + n) (out ++ (g.content.drop pos).take n) := by
  have hlt := g.content_lt
  have hhas : g.Has (pos / g.chunkSize) := Geometry.has_div (by omega)
  obtain ⟨d, hd⟩ : ∃ d, r.chunks[pos / g.chunkSize]? = some d := by
    rwa [Std.ExtTreeMap.mem_iff_isSome_getElem?, Option.isSome_iff_exists] at hcached
  obtain ⟨-, rfl⟩ := h.data _ d hd
  have hdiv : pos / g.chunkSize * g.chunkSize + pos % g.chunkSize = pos := Nat.div_add_mod' _ _
  have hmod := Nat.mod_lt pos g.chunkSize_pos
  have hlen : (g.chunk (pos / g.chunkSize)).length = _ := Geometry.length_chunk _
  refine ⟨min (stop - pos) ((g.chunk (pos / g.chunkSize)).length -
    (pos - pos / g.chunkSize * g.chunkSize)), by omega, by omega, ?_⟩
  rw [← chunk_take (by omega), assemble]
  simp only [hpos, if_true, h.chunkSize_eq, chunkBounds_ok h hhas, hd]
  rw [if_neg (by omega), if_neg (by omega), if_neg (by omega)]

/-- **The assembled bytes.** When every chunk of the range is cached, the loop
returns the bytes of the object in the range. -/
theorem assemble_ok (h : r.Coherent g) {stop : Nat} (hstop : stop ≤ g.content.length) (pos : Nat)
    (out : List UInt8) (hcached : ∀ p, pos ≤ p → p < stop → p / g.chunkSize ∈ r.chunks) :
    r.assemble stop pos out = .ok (out ++ (g.content.drop pos).take (stop - pos)) := by
  by_cases hpos : pos < stop
  · obtain ⟨n, hn, hle, hstep⟩ := assemble_step h hstop hpos (hcached pos le_rfl hpos) out
    have hrest : ∀ p, pos + n ≤ p → p < stop → p / g.chunkSize ∈ r.chunks :=
      fun p hp => hcached p (by omega)
    have hsplit : stop - pos = n + (stop - (pos + n)) := by omega
    rw [hstep, assemble_ok h hstop (pos + n) _ hrest, List.append_assoc, hsplit, List.take_add,
      List.drop_drop]
  · have hzero : stop - pos = 0 := by omega
    rw [assemble, if_neg hpos, hzero, List.take_zero, List.append_nil]
  termination_by stop - pos

/-! ## A read -/

/-- The chunks of `[first, w)` that are not cached. -/
def missing (r : ChunkReader) (first w : Nat) : List Nat :=
  (List.range' first (w - first)).filter fun i => !r.chunks.contains i

theorem foldl_store_order {done : List Nat} (f : Nat → List UInt8) :
    ((done.map fun i => (i, f i)).foldl ChunkReader.store r).order = done.foldl Lru.touch r.order := by
  induction done generalizing r with
  | nil => rfl
  | cons i done ih => exact ih

/-- The chunks of `[first, w)` are cached afterwards, those that were missing most
recently, or nothing has changed. -/
theorem fetchMissing_spec (h : r.Coherent g) (henv : env.Serves g.content) (first : Nat) {w : Nat}
    (hw : ∀ i, i < w → g.Has i) :
    (∃ r', fetchMissing env first w r = (.ok (), r') ∧ r'.Coherent g ∧
      (∀ i, first ≤ i → i < w → i ∈ r'.chunks) ∧
      r'.order = (completionOrder g env (r.missing first w)).foldl Lru.touch r.order) ∨
      ∃ e, env.Fails e ∧ fetchMissing env first w r = (.error (.storage e), r) := by
  unfold fetchMissing ChunkReader.missing
  rw [Cmd.get_bind]
  generalize hmissing :
    ((List.range' first (w - first)).filter fun i => !r.chunks.contains i) = missing
  have hmem : ∀ i, first ≤ i → i < w → i ∈ r.chunks ∨ i ∈ missing := by
    intro i hfirst hi
    by_cases hc : i ∈ r.chunks
    · exact Or.inl hc
    · refine Or.inr ?_
      rw [← hmissing, List.mem_filter, List.mem_range'_1]
      refine ⟨⟨hfirst, by omega⟩, ?_⟩
      rw [Bool.not_eq_true', Bool.eq_false_iff]
      exact fun hcached => hc (Std.ExtTreeMap.mem_iff_contains.mpr hcached)
  have hhas : ∀ i ∈ missing, g.Has i := by
    intro i hi
    rw [← hmissing, List.mem_filter, List.mem_range'_1] at hi
    exact hw i (by omega)
  cases hnone : missing.isEmpty with
  | true =>
    rw [List.isEmpty_iff] at hnone
    refine Or.inl ⟨r, by simp, h, ?_, ?_⟩
    · intro i hfirst hi
      rcases hmem i hfirst hi with hc | hc
      · exact hc
      · rw [hnone] at hc
        cases hc
    · have hnil := (hnone ▸ completionOrder_perm g env missing).eq_nil
      rw [hnone, hnil]
      rfl
  | false =>
    have hdone := completionOrder_perm g env missing
    rcases fetchChunks_spec h henv hhas with hfetched | ⟨e, hfails, he⟩
    · obtain ⟨hcoh, hin⟩ := h.foldl_store fun i hi => hhas i (hdone.mem_iff.mp hi)
      refine Or.inl ⟨_, ?_, hcoh, fun i hfirst hi => ?_, foldl_store_order _⟩
      · simp only [Bool.false_eq_true, if_false, hfetched]
        rfl
      · exact hin i ((hmem i hfirst hi).imp_right hdone.mem_iff.mpr)
    · refine Or.inr ⟨e, hfails, ?_⟩
      simp only [Bool.false_eq_true, if_false, he]
      rfl

/-- A read past the end, or of nothing, does nothing. -/
theorem read_empty (h : r.Coherent g) {offset len : Nat}
    (hempty : g.content.length ≤ offset ∨ len = 0) : read env offset len r = (.ok [], r) := by
  unfold read
  rw [Cmd.get_bind, h.size_eq, if_pos hempty]
  rfl

/-- The end of the range of a read. -/
def readEnd (content : List UInt8) (offset len : Nat) : Nat := min (offset + len) content.length

/-- A read of some bytes fetches what is missing, settles the cache and returns them,
or it fails and changes nothing. -/
theorem read_run (h : r.Coherent g) (henv : env.Serves g.content) {offset len stop : Nat}
    (hstop : stop = readEnd g.content offset len) (hoffset : offset < g.content.length)
    (hlen : len ≠ 0) :
    ∃ w, r.wantEnd offset (offset / g.chunkSize) ((stop - 1) / g.chunkSize) = .ok w ∧
      (stop - 1) / g.chunkSize < w ∧
      ((∃ r₁ : ChunkReader, r₁.Coherent g ∧ (∀ i, offset / g.chunkSize ≤ i → i < w → i ∈ r₁.chunks) ∧
        r₁.order =
          (completionOrder g env (r.missing (offset / g.chunkSize) w)).foldl Lru.touch r.order ∧
        read env offset len r = (.ok ((g.content.drop offset).take (stop - offset)),
          { r₁.settle (offset / g.chunkSize) ((stop - 1) / g.chunkSize) with lastEnd := stop })) ∨
      ∃ e, env.Fails e ∧ read env offset len r = (.error (.storage e), r)) := by
  have hlt := g.content_lt
  have hend : offset + min len (g.content.length - offset) = stop := by
    rw [hstop, readEnd]
    omega
  have hrange : offset < stop ∧ stop ≤ g.content.length := by omega
  have hfirst : offset / g.chunkSize ≤ (stop - 1) / g.chunkSize := Nat.div_le_div_right (by omega)
  obtain ⟨w, hw, hlast, hhas⟩ := wantEnd_ok h offset hfirst (Geometry.has_div (by omega))
  refine ⟨w, hw, hlast, ?_⟩
  unfold read
  rw [Cmd.get_bind, h.size_eq, if_neg (by omega), hend, h.chunkSize_eq, u64_of_lt (by omega),
    Cmd.ofExcept_ok_bind, u64Sub_of_le (by omega), Cmd.ofExcept_ok_bind, hw, Cmd.ofExcept_ok_bind]
  rcases fetchMissing_spec h henv (offset / g.chunkSize) hhas with
    ⟨r₁, hrun, hcoh, hin, horder⟩ | ⟨e, hfails, hrun⟩
  · left
    rw [Cmd.bind_ok hrun, Cmd.modify_bind, Cmd.get_bind]
    obtain ⟨hsettled, -, hkept⟩ := hcoh.settle (offset / g.chunkSize) ((stop - 1) / g.chunkSize)
      fun i hlo hhi => hin i hlo (by omega)
    have hcached : ∀ p, offset ≤ p → p < stop → p / g.chunkSize ∈
        (r₁.settle (offset / g.chunkSize) ((stop - 1) / g.chunkSize)).chunks := by
      intro p hp hps
      exact hkept _ (Nat.div_le_div_right hp) (Nat.div_le_div_right (by omega))
    rw [assemble_ok hsettled hrange.2 offset [] hcached, Cmd.ofExcept_ok_bind, Cmd.modify_bind,
      List.nil_append]
    exact ⟨r₁, hcoh, hin, horder, rfl⟩
  · exact Or.inr ⟨e, hfails, Cmd.bind_error hrun⟩

/-- A read of some bytes returns them and caches their chunks, within the budget or
what it needs, or it fails and changes nothing. -/
theorem read_spec (h : r.Coherent g) (henv : env.Serves g.content) {offset len : Nat}
    (hoffset : offset < g.content.length) (hlen : len ≠ 0) :
    (∃ r', read env offset len r =
        (.ok ((g.content.drop offset).take (readEnd g.content offset len - offset)), r') ∧
      r'.Coherent g ∧
      r'.chunks.size ≤ max g.maxChunks
        ((readEnd g.content offset len - 1) / g.chunkSize + 1 - offset / g.chunkSize) ∧
      ∀ p, offset ≤ p → p < readEnd g.content offset len → p / g.chunkSize ∈ r'.chunks) ∨
      ∃ e, env.Fails e ∧ read env offset len r = (.error (.storage e), r) := by
  obtain ⟨w, -, hlast, ⟨r₁, hcoh, hin, -, hrun⟩ | hfailed⟩ := read_run h henv rfl hoffset hlen
  · left
    generalize readEnd g.content offset len = stop at *
    obtain ⟨hsettled, hsize, hkept⟩ := hcoh.settle (offset / g.chunkSize) ((stop - 1) / g.chunkSize)
      fun i hlo hhi => hin i hlo (by omega)
    refine ⟨_, hrun, ⟨hsettled.size_eq, hsettled.chunkSize_eq, hsettled.maxChunks_eq,
      hsettled.tracks, hsettled.data⟩, hsize, ?_⟩
    intro p hp hps
    exact hkept _ (Nat.div_le_div_right hp) (Nat.div_le_div_right (by omega))
  · exact .inr hfailed

end ChunkReader

end Rs5cmd
