import Rs5cmd.Theorems.ChunkReader

/-!
# Reading ahead

A sequential reader is meant to ask the store for each chunk once. Chunks fetched
ahead stand in the recency order before those that have been read, so an eviction
can drop a chunk that no read has reached yet, and a later read fetches it again.
-/

namespace Rs5cmd

namespace ChunkReader

variable {g : Geometry} {r : ChunkReader} {c : ReadCall}

/-- The first chunk of a read. -/
def ReadCall.first (c : ReadCall) (r : ChunkReader) : Nat := c.offset / r.chunkSize

/-- The last chunk of a read. -/
def ReadCall.last (c : ReadCall) (r : ChunkReader) : Nat :=
  (min (c.offset + c.len) r.size - 1) / r.chunkSize

/-- The chunks of a read. -/
def ReadCall.covered (c : ReadCall) (r : ChunkReader) : List Nat :=
  List.range' (c.first r) (c.last r + 1 - c.first r)

/-- The chunks that a read asks the store for. -/
def ReadCall.asked (c : ReadCall) (r : ChunkReader) : List Nat :=
  if r.size ≤ c.offset ∨ c.len = 0 then []
  else
    match r.wantEnd c.offset (c.first r) (c.last r) with
    | .ok w => r.missing (c.first r) w
    | .error _ => []

/-- A reader, where its last read ended, and the chunks fetched so far. -/
structure ReadAhead where
  reader : ChunkReader
  pos : Nat := 0
  fetched : List Nat := []

def ReadAhead.after (s : ReadAhead) (c : ReadCall) : ReadAhead where
  reader := (c.outcome s.reader).2
  pos :=
    match (c.outcome s.reader).1 with
    | .ok data => c.offset + data.length
    | .error _ => s.pos
  fetched := s.fetched ++ c.asked s.reader

def ReadAhead.step (s : ReadAhead) (c : ReadCall) : Option ReadAhead := some (s.after c)

/-- The next read of a sequential reader, within the budget and with a store that
serves it. -/
structure Sequential (content : List UInt8) (s : ReadAhead) (c : ReadCall) : Prop where
  next : c.offset = s.pos
  spans : c.spanned s.reader ≤ s.reader.maxChunks
  serves : c.env.Serves content
  reliable : ∀ e, ¬ c.env.Fails e

/-- The chunks behind a read that lead the recency order, its own left aside. -/
def ReadCall.behind (c : ReadCall) (r : ChunkReader) : List Nat :=
  (r.order.filter fun i => i ∉ c.covered r).takeWhile fun i => i < c.first r

/-- A read brings no more chunks over the budget than there are chunks behind it to
evict first. -/
def ReadCall.Spares (s : ReadAhead) (c : ReadCall) : Prop :=
  s.reader.order.length + (c.asked s.reader).length ≤
    s.reader.maxChunks + (c.behind s.reader).length

/-! ## One read -/

/-- The recency order after a fetch, before the eviction. -/
def ReadCall.touched (g : Geometry) (c : ReadCall) (r : ChunkReader) : List Nat :=
  (r.order ++ completionOrder g c.env (c.asked r)).filter (fun i => i ∉ c.covered r) ++ c.covered r

theorem not_mem_order_of_missing (h : r.Coherent g) {first w i : Nat} (hi : i ∈ r.missing first w) :
    i ∉ r.order ∧ first ≤ i ∧ i < w := by
  rw [missing, List.mem_filter, List.mem_range'_1, Bool.not_eq_true', Bool.eq_false_iff] at hi
  refine ⟨fun horder => hi.2 ?_, hi.1.1, by omega⟩
  exact Std.ExtTreeMap.mem_iff_contains.mp ((h.tracks.mem_iff i).mp horder)

theorem nodup_missing (first w : Nat) : (r.missing first w).Nodup := List.Nodup.filter _ List.nodup_range'

theorem asked_empty (h : r.Coherent g) (hempty : g.content.length ≤ c.offset ∨ c.len = 0) :
    c.asked r = [] := by
  rw [ReadCall.asked, h.size_eq, if_pos hempty]

/-- The end of the chunks that a read covers or fetches ahead. -/
def ReadCall.window (c : ReadCall) (r : ChunkReader) : Nat :=
  max (min (min (if r.lastEnd = 0 ∨ c.offset = r.lastEnd then
      max (c.last r + 1) (c.first r + r.maxChunks) else c.last r + 1)
    (c.first r + r.maxChunks)) r.nChunks) (c.last r + 1)

theorem u64_eq_ok {n m : Nat} (h : u64 n = .ok m) : n = m := by
  unfold u64 at h
  split at h
  · exact Except.ok.inj h
  · cases h

theorem wantEnd_inv {w : Nat} (hw : r.wantEnd c.offset (c.first r) (c.last r) = .ok w) :
    w = c.window r := by
  obtain ⟨next, hnext, hw⟩ := Except.bind_eq_ok_iff.mp hw
  obtain ⟨ahead, hahead, hw⟩ := Except.bind_eq_ok_iff.mp hw
  obtain rfl := u64_eq_ok hnext
  obtain rfl := u64_eq_ok hahead
  exact (Except.ok.inj hw).symm

/-- A read of some bytes asks for what is missing of its window. -/
theorem window_ok (h : r.Coherent g) (hoffset : c.offset < g.content.length) (hlen : c.len ≠ 0) :
    c.asked r = r.missing (c.first r) (c.window r) ∧
      c.first r ≤ c.last r ∧ c.last r < c.window r ∧ ∀ i, i < c.window r → g.Has i := by
  have hfirst : c.first r ≤ c.last r := by
    rw [ReadCall.first, ReadCall.last, h.size_eq]
    exact Nat.div_le_div_right (by omega)
  have hhas : g.Has (c.last r) := by
    rw [ReadCall.last, h.chunkSize_eq, h.size_eq]
    exact Geometry.has_div (by omega)
  obtain ⟨w, hw, hlast, hin⟩ := wantEnd_ok h c.offset hfirst hhas
  rw [ReadCall.asked, h.size_eq, if_neg (by omega), hw]
  rw [wantEnd_inv hw] at hlast hin ⊢
  exact ⟨rfl, hfirst, hlast, hin⟩

theorem nodup_asked (c : ReadCall) (r : ChunkReader) : (c.asked r).Nodup := by
  unfold ReadCall.asked
  split
  · exact List.nodup_nil
  · split
    · exact nodup_missing _ _
    · exact List.nodup_nil

theorem mem_asked (h : r.Coherent g) {i : Nat} (hi : i ∈ c.asked r) :
    i ∉ r.order ∧ c.first r ≤ i ∧ i < c.window r ∧ g.Has i := by
  by_cases hempty : g.content.length ≤ c.offset ∨ c.len = 0
  · rw [asked_empty h hempty] at hi
    cases hi
  · obtain ⟨hasked, -, -, hhas⟩ := window_ok (c := c) h (by omega) (by omega)
    rw [hasked] at hi
    obtain ⟨horder, hfirst, hlt⟩ := not_mem_order_of_missing h hi
    exact ⟨horder, hfirst, hlt, hhas i hlt⟩

/-- The chunks that arrive stand behind those that were cached. -/
theorem nodup_append_asked (h : r.Coherent g) :
    (r.order ++ completionOrder g c.env (c.asked r)).Nodup := by
  have hperm := completionOrder_perm g c.env (c.asked r)
  refine List.nodup_append.mpr ⟨h.tracks.nodup, hperm.nodup_iff.mpr (nodup_asked c r), ?_⟩
  rintro i hi j hj rfl
  exact (mem_asked h (hperm.mem_iff.mp hj)).1 hi

theorem foldl_touch_asked (h : r.Coherent g) :
    (completionOrder g c.env (c.asked r)).foldl Lru.touch r.order =
      r.order ++ completionOrder g c.env (c.asked r) := by
  obtain ⟨horder, hdone, hapart⟩ := List.nodup_append.mp (nodup_append_asked (c := c) h)
  rw [Lru.foldl_touch hdone _ horder, List.filter_eq_self.mpr]
  intro i hi
  exact decide_eq_true fun hj => hapart i hi i hj rfl

/-- What a read with a reliable store does to the reader. -/
structure Reads (g : Geometry) (c : ReadCall) (r r' : ChunkReader) : Prop where
  coherent : r'.Coherent g
  lastEnd : r'.lastEnd = readEnd g.content c.offset c.len
  size : r'.chunks.size ≤ max g.maxChunks (c.spanned r)
  order : r'.order =
    Lru.evictKeys g.maxChunks (fun i => decide (c.first r ≤ i ∧ i ≤ c.last r))
      (c.touched g r).length (c.touched g r)

theorem outcome_ok (h : r.Coherent g) (henv : c.env.Serves g.content)
    (hreliable : ∀ e, ¬ c.env.Fails e) (hoffset : c.offset < g.content.length) (hlen : c.len ≠ 0) :
    ∃ r', Reads g c r r' ∧ c.outcome r = (.ok ((g.content.drop c.offset).take
      (readEnd g.content c.offset c.len - c.offset)), r') := by
  have hfirst : c.offset / g.chunkSize = c.first r := by rw [ReadCall.first, h.chunkSize_eq]
  have hlast : (readEnd g.content c.offset c.len - 1) / g.chunkSize = c.last r := by
    rw [ReadCall.last, h.chunkSize_eq, h.size_eq]
    rfl
  obtain ⟨w, hw, hlt, ⟨r₁, hcoh, hin, horder, hrun⟩ | ⟨e, hfails, -⟩⟩ :=
    read_run h henv rfl hoffset hlen
  · rw [hfirst, hlast] at hw hrun
    rw [hlast] at hlt
    rw [hfirst, wantEnd_inv hw, ← (window_ok h hoffset hlen).1] at horder
    rw [hfirst] at hin
    obtain ⟨hsettled, hsize, -⟩ := hcoh.settle (c.first r) (c.last r)
      fun i hlo hhi => hin i hlo (by omega)
    refine ⟨{ r₁.settle (c.first r) (c.last r) with
      lastEnd := readEnd g.content c.offset c.len },
      ⟨⟨hsettled.size_eq, hsettled.chunkSize_eq, hsettled.maxChunks_eq, hsettled.tracks,
        hsettled.data⟩, rfl, ?_, ?_⟩, hrun⟩
    · rw [ReadCall.spanned_eq h, if_neg (by omega), hfirst, hlast]
      exact hsize
    · refine hcoh.settle_order (fun i hlo hhi => hin i hlo (by omega)) ?_
      rw [horder, foldl_touch_asked h, Lru.foldl_touch List.nodup_range' _ (nodup_append_asked h)]
      rfl
  · exact absurd hfails (hreliable e)

/-! ## Where the chunks are -/

theorem mem_covered {i : Nat} : i ∈ c.covered r ↔ c.first r ≤ i ∧ i ≤ c.last r := by
  rw [ReadCall.covered, List.mem_range'_1]
  omega

theorem mem_order_or_asked {i : Nat} (h : r.Coherent g) (hoffset : c.offset < g.content.length)
    (hlen : c.len ≠ 0) (hfirst : c.first r ≤ i) (hi : i < c.window r) :
    i ∈ r.order ∨ i ∈ c.asked r := by
  by_cases horder : i ∈ r.order
  · exact .inl horder
  · right
    rw [(window_ok h hoffset hlen).1, missing, List.mem_filter, List.mem_range'_1,
      Bool.not_eq_true', Bool.eq_false_iff]
    refine ⟨by omega, fun hcached => horder ?_⟩
    exact (h.tracks.mem_iff i).mpr (Std.ExtTreeMap.mem_iff_contains.mpr hcached)

theorem mem_touched {i : Nat} (hi : i ∈ r.order ∨ i ∈ c.asked r) : i ∈ c.touched g r := by
  have hperm := completionOrder_perm g c.env (c.asked r)
  rw [ReadCall.touched, List.mem_append]
  by_cases hcovered : i ∈ c.covered r
  · exact .inr hcovered
  · left
    rw [List.mem_filter, List.mem_append, hperm.mem_iff]
    exact ⟨hi, decide_eq_true hcovered⟩

theorem of_mem_touched {i : Nat} (hi : i ∈ c.touched g r) :
    i ∈ r.order ∨ i ∈ c.asked r ∨ i ∈ c.covered r := by
  rcases List.mem_append.mp hi with hi | hi
  · rcases List.mem_append.mp (List.mem_of_mem_filter hi) with hi | hi
    · exact .inl hi
    · exact .inr (.inl ((completionOrder_perm g c.env (c.asked r)).mem_iff.mp hi))
  · exact .inr (.inr hi)

theorem length_touched_le (h : r.Coherent g)
    (hcovered : ∀ i ∈ c.covered r, i ∈ r.order ∨ i ∈ c.asked r) :
    (c.touched g r).length ≤ r.order.length + (c.asked r).length := by
  have hperm := completionOrder_perm g c.env (c.asked r)
  have hnodup : (c.touched g r).Nodup := by
    refine List.nodup_append.mpr ⟨(nodup_append_asked h).filter _, List.nodup_range', ?_⟩
    rintro i hi j hj rfl
    exact of_decide_eq_true (List.mem_filter.mp hi).2 hj
  have hsub : c.touched g r ⊆ r.order ++ completionOrder g c.env (c.asked r) := by
    intro i hi
    rcases List.mem_append.mp hi with hi | hi
    · exact List.mem_of_mem_filter hi
    · rw [List.mem_append, hperm.mem_iff]
      exact hcovered i hi
  have hle := (hnodup.subperm hsub).length_le
  rwa [List.length_append, hperm.length_eq] at hle

theorem lt_of_mem_behind {i : Nat} (hi : i ∈ c.behind r) : i < c.first r :=
  of_decide_eq_true (List.mem_takeWhile_imp (p := fun j => decide (j < c.first r)) hi)

theorem touched_eq (g : Geometry) (c : ReadCall) (r : ChunkReader) :
    ∃ back, c.touched g r = c.behind r ++ back := by
  obtain ⟨rest, hrest⟩ : c.behind r <+: r.order.filter fun i => i ∉ c.covered r :=
    List.takeWhile_prefix _
  rw [ReadCall.touched, List.filter_append, ← hrest, List.append_assoc, List.append_assoc]
  exact ⟨_, rfl⟩

/-- Chunks from the read on survive an eviction that spares them. -/
theorem kept_of_spares {s : ReadAhead} {r' : ChunkReader} {i : Nat} (h : s.reader.Coherent g)
    (hread : Reads g c s.reader r')
    (hcovered : ∀ i ∈ c.covered s.reader, i ∈ s.reader.order ∨ i ∈ c.asked s.reader)
    (hspares : c.Spares s) (hi : i ∈ s.reader.order ∨ i ∈ c.asked s.reader)
    (hfirst : c.first s.reader ≤ i) : i ∈ r'.order := by
  have hlen := length_touched_le h hcovered
  have hmem : i ∈ c.touched g s.reader := mem_touched hi
  obtain ⟨back, hback⟩ := touched_eq g c s.reader
  rw [hread.order]
  rw [hback] at hlen hmem ⊢
  rw [List.length_append] at hlen
  rw [ReadCall.Spares, h.maxChunks_eq] at hspares
  have hsize : back.length ≤ g.maxChunks := by omega
  have hkeep : ∀ j ∈ c.behind s.reader,
      decide (c.first s.reader ≤ j ∧ j ≤ c.last s.reader) = false := by
    intro j hj
    have hlt := lt_of_mem_behind hj
    exact decide_eq_false (by omega)
  rcases Lru.mem_evictKeys hkeep hsize hmem with hi | hi
  · have hlt := lt_of_mem_behind hi
    omega
  · exact hi

/-! ## Runs -/

/-- Between reads. -/
structure ReadAhead.Inv (g : Geometry) (s : ReadAhead) : Prop where
  coherent : s.reader.Coherent g
  budget : s.reader.chunks.size ≤ g.maxChunks
  nodup : s.fetched.Nodup
  /-- A chunk that has been fetched is cached, or reading has gone past it. -/
  reached : ∀ i ∈ s.fetched, i ∈ s.reader.order ∨ i < s.pos / g.chunkSize

theorem first_eq {s : ReadAhead} (h : s.reader.Coherent g) (hnext : c.offset = s.pos) :
    c.first s.reader = s.pos / g.chunkSize := by
  rw [ReadCall.first, h.chunkSize_eq, hnext]

/-- The step of a read that returns bytes. -/
structure Advances (g : Geometry) (c : ReadCall) (s s' : ReadAhead) : Prop where
  reads : Reads g c s.reader s'.reader
  pos_eq : s'.pos = readEnd g.content c.offset c.len
  fetched_eq : s'.fetched = s.fetched ++ c.asked s.reader
  forward : s.pos / g.chunkSize ≤ s'.pos / g.chunkSize
  first_le : c.first s.reader ≤ c.last s.reader
  last_lt : c.last s.reader < c.window s.reader
  window_le : c.window s.reader ≤ c.first s.reader + g.maxChunks
  cached : ∀ i, c.first s.reader ≤ i → i < c.window s.reader →
    i ∈ s.reader.order ∨ i ∈ c.asked s.reader

theorem Advances.covered {s s' : ReadAhead} (h : Advances g c s s') :
    ∀ i ∈ c.covered s.reader, i ∈ s.reader.order ∨ i ∈ c.asked s.reader := by
  intro i hi
  rw [mem_covered] at hi
  exact h.cached i hi.1 (Nat.lt_of_le_of_lt hi.2 h.last_lt)

theorem window_le (h : r.Coherent g) (hoffset : c.offset < g.content.length) (hlen : c.len ≠ 0)
    (hspans : c.spanned r ≤ r.maxChunks) : c.window r ≤ c.first r + g.maxChunks := by
  have hlast : c.last r + 1 - c.first r = c.spanned r := by
    rw [ReadCall.spanned, h.size_eq, if_neg (by omega), ReadCall.last, ReadCall.first, h.size_eq]
  rw [ReadCall.window]
  rw [h.maxChunks_eq] at hspans ⊢
  omega

/-- A sequential read returns nothing and changes nothing, or it advances. -/
theorem Sequential.after {s : ReadAhead} (h : s.reader.Coherent g)
    (hseq : Sequential g.content s c) :
    (g.content.length ≤ c.offset ∨ c.len = 0) ∧ s.after c = s ∧ c.asked s.reader = [] ∨
      Advances g c s (s.after c) := by
  by_cases hempty : g.content.length ≤ c.offset ∨ c.len = 0
  · left
    have hout : c.outcome s.reader = (.ok [], s.reader) := read_empty h hempty
    have hnone := asked_empty h hempty
    refine ⟨hempty, ?_, hnone⟩
    rw [ReadAhead.after, hout, hnone, List.append_nil]
    simp only [List.length_nil, Nat.add_zero, hseq.next]
  · right
    have hoffset : c.offset < g.content.length ∧ c.len ≠ 0 := by omega
    obtain ⟨r', hread, hout⟩ := outcome_ok h hseq.serves hseq.reliable hoffset.1 hoffset.2
    obtain ⟨-, hfirst, hlast, -⟩ := window_ok h hoffset.1 hoffset.2
    have hpos : c.offset + min (readEnd g.content c.offset c.len - c.offset)
        (g.content.length - c.offset) = readEnd g.content c.offset c.len := by
      rw [readEnd]
      omega
    have hafter : s.after c =
        ⟨r', readEnd g.content c.offset c.len, s.fetched ++ c.asked s.reader⟩ := by
      rw [ReadAhead.after, hout]
      simp only [List.length_take, List.length_drop, hpos]
    rw [hafter]
    refine ⟨hread, rfl, rfl, ?_, hfirst, hlast,
      window_le h hoffset.1 hoffset.2 hseq.spans,
      fun i => mem_order_or_asked h hoffset.1 hoffset.2⟩
    refine Nat.div_le_div_right ?_
    show s.pos ≤ readEnd g.content c.offset c.len
    rw [← hseq.next, readEnd]
    omega

theorem ReadAhead.Inv.after {s : ReadAhead} (h : s.Inv g) (hseq : Sequential g.content s c)
    (hspares : c.Spares s) : (s.after c).Inv g := by
  rcases hseq.after h.coherent with ⟨-, hsame, -⟩ | hnext
  · rwa [hsame]
  have hfirst := first_eq h.coherent hseq.next
  refine ⟨hnext.reads.coherent, ?_, ?_, ?_⟩
  · have hsize := hnext.reads.size
    have hspans := hseq.spans
    rw [h.coherent.maxChunks_eq] at hspans
    omega
  · rw [hnext.fetched_eq]
    refine List.nodup_append.mpr ⟨h.nodup, nodup_asked c s.reader, ?_⟩
    rintro i hi j hj rfl
    obtain ⟨horder, hge, -⟩ := mem_asked h.coherent hj
    rcases h.reached i hi with hcached | hlt
    · exact horder hcached
    · omega
  · intro i hi
    rw [hnext.fetched_eq, List.mem_append] at hi
    have hforward := hnext.forward
    by_cases hlt : i < c.first s.reader
    · right
      omega
    · left
      refine kept_of_spares h.coherent hnext.reads hnext.covered hspares ?_ (by omega)
      rcases hi with hi | hi
      · rcases h.reached i hi with hcached | hpast
        · exact .inl hcached
        · omega
      · exact .inr hi

/-! ## Sizes at which every run spares -/

theorem ReadAhead.Inv.length_order {s : ReadAhead} (h : s.Inv g) :
    s.reader.order.length ≤ g.maxChunks := by
  have hbudget := h.budget
  rwa [h.coherent.tracks.size_eq] at hbudget

theorem has_of_mem_order (h : r.Coherent g) {i : Nat} (hi : i ∈ r.order) : g.Has i := by
  have hcached := (h.tracks.mem_iff i).mp hi
  rw [Std.ExtTreeMap.mem_iff_isSome_getElem?, Option.isSome_iff_exists] at hcached
  obtain ⟨d, hd⟩ := hcached
  exact (h.data i d hd).1

theorem length_asked (g : Geometry) (c : ReadCall) (r : ChunkReader) :
    (completionOrder g c.env (c.asked r)).length = (c.asked r).length :=
  (completionOrder_perm g c.env (c.asked r)).length_eq

/-- An object within the budget never evicts. -/
theorem spares_of_fits {s : ReadAhead} (h : s.Inv g) (hfits : ∀ i, g.Has i → i < g.maxChunks) :
    c.Spares s := by
  have hsub : s.reader.order ++ completionOrder g c.env (c.asked s.reader) ⊆
      List.range g.maxChunks := by
    intro i hi
    rw [List.mem_range]
    refine hfits i ?_
    rcases List.mem_append.mp hi with hi | hi
    · exact has_of_mem_order h.coherent hi
    · exact (mem_asked h.coherent ((completionOrder_perm g c.env _).mem_iff.mp hi)).2.2.2
  have hle := ((nodup_append_asked h.coherent).subperm hsub).length_le
  rw [List.length_append, length_asked, List.length_range] at hle
  rw [ReadCall.Spares, h.coherent.maxChunks_eq]
  omega

/-- With a budget of two, what is cached ahead is the chunk after the one being read. -/
def ReadAhead.Near (g : Geometry) (s : ReadAhead) : Prop :=
  ∀ i ∈ s.reader.order, i ≤ s.pos / g.chunkSize ∨
    i = s.pos / g.chunkSize + 1 ∧ s.pos / g.chunkSize ∈ s.reader.order

theorem spares_of_two {s : ReadAhead} (h : s.Inv g) (hnear : s.Near g) (htwo : g.maxChunks = 2)
    (hseq : Sequential g.content s c) : c.Spares s := by
  have hbudget := h.length_order
  rw [ReadCall.Spares, h.coherent.maxChunks_eq, htwo]
  rcases hseq.after h.coherent with ⟨-, -, hnone⟩ | hnext
  · rw [hnone, List.length_nil]
    omega
  have hwindow := hnext.window_le
  have hfirst := first_eq h.coherent hseq.next
  have hle := hnext.first_le
  rw [htwo, hfirst] at hwindow
  have hasked : ∀ i ∈ c.asked s.reader, i ∉ s.reader.order ∧
      (i = s.pos / g.chunkSize ∨ i = s.pos / g.chunkSize + 1) := by
    intro i hi
    obtain ⟨horder, hge, hlt, -⟩ := mem_asked h.coherent hi
    exact ⟨horder, by omega⟩
  by_cases hahead : s.pos / g.chunkSize + 1 ∈ s.reader.order
  · -- both chunks of the window are cached
    have hnone : c.asked s.reader = [] := by
      rw [List.eq_nil_iff_forall_not_mem]
      intro i hi
      obtain ⟨horder, rfl | rfl⟩ := hasked i hi
      · rcases hnear _ hahead with hle | ⟨-, hcached⟩
        · omega
        · exact horder hcached
      · exact horder hahead
    rw [hnone, List.length_nil]
    omega
  · -- nothing is cached beyond the first chunk of the read
    have hpast : ∀ i ∈ s.reader.order, i ≤ s.pos / g.chunkSize := by
      intro i hi
      rcases hnear i hi with hle | ⟨rfl, -⟩
      · exact hle
      · exact absurd hi hahead
    have hbehind : c.behind s.reader = s.reader.order.filter fun i => i ∉ c.covered s.reader := by
      refine List.takeWhile_eq_self_iff.mpr fun i hi => ?_
      obtain ⟨hi, hcovered⟩ := List.mem_filter.mp hi
      have hnot := of_decide_eq_true hcovered
      rw [mem_covered] at hnot
      have hle := hpast i hi
      exact decide_eq_true (by omega)
    have hnodup : (s.reader.order.filter (fun i => i ∈ c.covered s.reader) ++
        c.asked s.reader).Nodup := by
      refine List.nodup_append.mpr ⟨h.coherent.tracks.nodup.filter _, nodup_asked c _, ?_⟩
      rintro i hi j hj rfl
      exact (hasked i hj).1 (List.mem_of_mem_filter hi)
    have hsub : s.reader.order.filter (fun i => i ∈ c.covered s.reader) ++ c.asked s.reader ⊆
        [s.pos / g.chunkSize, s.pos / g.chunkSize + 1] := by
      intro i hi
      rw [List.mem_cons, List.mem_singleton]
      rcases List.mem_append.mp hi with hi | hi
      · obtain ⟨hi, hcovered⟩ := List.mem_filter.mp hi
        have hin := mem_covered.mp (of_decide_eq_true hcovered)
        have hle := hpast i hi
        omega
      · exact (hasked i hi).2
    have hle := (hnodup.subperm hsub).length_le
    have hsplit := List.length_eq_length_filter_add (l := s.reader.order)
      fun i => decide (i ∈ c.covered s.reader)
    simp only [← decide_not] at hsplit
    rw [List.length_append] at hle
    rw [hbehind]
    simp only [List.length_cons, List.length_nil] at hle
    omega

/-- The budget of two keeps the reader near. -/
theorem ReadAhead.Near.after {s : ReadAhead} (h : s.Inv g) (hnear : s.Near g) (htwo : g.maxChunks = 2)
    (hseq : Sequential g.content s c) : (s.after c).Near g := by
  rcases hseq.after h.coherent with ⟨-, hsame, -⟩ | hnext
  · rwa [hsame]
  have hfirst := first_eq h.coherent hseq.next
  have hwindow := hnext.window_le
  have hforward := hnext.forward
  have hlast := hnext.last_lt
  have hle := hnext.first_le
  intro i hi
  -- nothing beyond the window has been fetched
  have hi' : i ≤ s.pos / g.chunkSize + 1 := by
    rcases of_mem_touched (Lru.mem_of_mem_evictKeys (hnext.reads.order ▸ hi)) with
      hcached | hasked | hcovered
    · rcases hnear i hcached with hpast | ⟨rfl, -⟩
      · omega
      · exact le_rfl
    · obtain ⟨-, -, hlt, -⟩ := mem_asked h.coherent hasked
      omega
    · rw [mem_covered] at hcovered
      omega
  by_cases hend : (s.after c).pos / g.chunkSize = s.pos / g.chunkSize
  · rw [hend]
    by_cases hahead : i = s.pos / g.chunkSize + 1
    · -- the read ended in the chunk it began in, which it keeps
      refine .inr ⟨hahead, kept_of_spares h.coherent hnext.reads hnext.covered
        (spares_of_two h hnear htwo hseq) (hnext.cached _ ?_ ?_) ?_⟩
      all_goals omega
    · left
      omega
  · left
    omega

/-! ## Three reads that fetch a chunk twice -/

/-- A read of exactly one chunk. -/
def chunkRead (g : Geometry) (k : Nat) : ReadCall :=
  ⟨k * g.chunkSize, g.chunkSize, .exactly g.content⟩

section

variable {k : Nat}

theorem readEnd_chunkRead (hk : (k + 1) * g.chunkSize ≤ g.content.length) :
    readEnd g.content (chunkRead g k).offset (chunkRead g k).len = (k + 1) * g.chunkSize := by
  have hsum : k * g.chunkSize + g.chunkSize = (k + 1) * g.chunkSize := (Nat.add_one_mul k _).symm
  show min (k * g.chunkSize + g.chunkSize) _ = _
  omega

theorem first_chunkRead (h : r.Coherent g) (k : Nat) : (chunkRead g k).first r = k := by
  rw [ReadCall.first, h.chunkSize_eq]
  exact Nat.mul_div_cancel k g.chunkSize_pos

theorem last_chunkRead (h : r.Coherent g) (hk : (k + 1) * g.chunkSize ≤ g.content.length) :
    (chunkRead g k).last r = k := by
  have hend := readEnd_chunkRead hk
  have hpos := g.chunkSize_pos
  have hsum := Nat.add_one_mul k g.chunkSize
  rw [readEnd] at hend
  rw [ReadCall.last, h.chunkSize_eq, h.size_eq, hend]
  exact Nat.div_eq_of_lt_le (by omega) (by omega)

theorem covered_chunkRead (h : r.Coherent g) (hk : (k + 1) * g.chunkSize ≤ g.content.length) :
    (chunkRead g k).covered r = [k] := by
  have hone : k + 1 - k = 1 := by omega
  rw [ReadCall.covered, first_chunkRead h, last_chunkRead h hk, hone]
  rfl

theorem sequential_chunkRead {s : ReadAhead} (h : s.reader.Coherent g)
    (hk : (k + 1) * g.chunkSize ≤ g.content.length) (hmax : 3 ≤ g.maxChunks)
    (hpos : s.pos = k * g.chunkSize) : Sequential g.content s (chunkRead g k) where
  next := hpos.symm
  spans := by
    have hspan := congrArg List.length (covered_chunkRead h hk)
    rw [ReadCall.covered, List.length_range'] at hspan
    rw [ReadCall.spanned, h.maxChunks_eq]
    split
    · omega
    · have heq : (min ((chunkRead g k).offset + (chunkRead g k).len) s.reader.size - 1) /
          s.reader.chunkSize + 1 - (chunkRead g k).offset / s.reader.chunkSize = 1 := hspan
      rw [heq]
      omega
  serves := ReadEnv.exactly_serves g.content
  reliable := ReadEnv.exactly_not_fails g.content

theorem window_chunkRead (h : r.Coherent g) (hk : (k + 1) * g.chunkSize ≤ g.content.length)
    (hmax : 3 ≤ g.maxChunks) (hlast : r.lastEnd = 0 ∨ k * g.chunkSize = r.lastEnd) :
    (chunkRead g k).window r = max (min (k + g.maxChunks) r.nChunks) (k + 1) := by
  have hseq : r.lastEnd = 0 ∨ (chunkRead g k).offset = r.lastEnd := hlast
  rw [ReadCall.window, first_chunkRead h, last_chunkRead h hk, h.maxChunks_eq, if_pos hseq]
  omega

theorem missing_eq (h : r.Coherent g) (first w : Nat) :
    r.missing first w = (List.range' first (w - first)).filter fun i => i ∉ r.order := by
  refine List.filter_congr fun i _ => ?_
  rw [Bool.eq_iff_iff, Bool.not_eq_true', Bool.eq_false_iff, decide_eq_true_iff, h.tracks.mem_iff,
    Std.ExtTreeMap.mem_iff_contains]

/-- The chunks that a read of one chunk asks for. -/
theorem asked_chunkRead (h : r.Coherent g) (hk : (k + 1) * g.chunkSize ≤ g.content.length)
    (hmax : 3 ≤ g.maxChunks) (hlast : r.lastEnd = 0 ∨ k * g.chunkSize = r.lastEnd) {w : Nat}
    (hw : max (min (k + g.maxChunks) r.nChunks) (k + 1) - k = w) :
    (chunkRead g k).asked r = (List.range' k w).filter fun i => i ∉ r.order := by
  have hpos := g.chunkSize_pos
  have hsum := Nat.add_one_mul k g.chunkSize
  have hoffset : (chunkRead g k).offset < g.content.length := by
    show k * g.chunkSize < _
    omega
  have hlen : (chunkRead g k).len ≠ 0 := by
    show g.chunkSize ≠ 0
    omega
  rw [(window_ok h hoffset hlen).1, missing_eq h, window_chunkRead h hk hmax hlast,
    first_chunkRead h, hw]

theorem completionOrder_exactly (idxs : List Nat) :
    completionOrder g (.exactly g.content) idxs = idxs := by
  show (idxs.map g.request).map ChunkRequest.idx = idxs
  rw [List.map_map]
  exact List.map_id idxs

/-- What reading one chunk does. -/
structure ReadsOne (g : Geometry) (k : Nat) (s s' : ReadAhead) : Prop where
  coherent : s'.reader.Coherent g
  pos_eq : s'.pos = (k + 1) * g.chunkSize
  lastEnd_eq : s'.reader.lastEnd = (k + 1) * g.chunkSize
  fetched_eq : s'.fetched = s.fetched ++ (chunkRead g k).asked s.reader
  order_eq : ∀ order, (s.reader.order ++ (chunkRead g k).asked s.reader).filter
      (fun i => i ∉ [k]) ++ [k] = order →
    s'.reader.order =
      Lru.evictKeys g.maxChunks (fun i => decide (k ≤ i ∧ i ≤ k)) order.length order

theorem after_chunkRead {s : ReadAhead} (h : s.reader.Coherent g)
    (hk : (k + 1) * g.chunkSize ≤ g.content.length) (hmax : 3 ≤ g.maxChunks)
    (hpos : s.pos = k * g.chunkSize) : ReadsOne g k s (s.after (chunkRead g k)) := by
  have hpositive := g.chunkSize_pos
  have hsum := Nat.add_one_mul k g.chunkSize
  rcases (sequential_chunkRead h hk hmax hpos).after h with ⟨hempty, -⟩ | hnext
  · have hnot : g.content.length ≤ k * g.chunkSize ∨ g.chunkSize = 0 := hempty
    omega
  · refine ⟨hnext.reads.coherent, hnext.pos_eq.trans (readEnd_chunkRead hk),
      hnext.reads.lastEnd.trans (readEnd_chunkRead hk), hnext.fetched_eq, ?_⟩
    rintro order rfl
    have henv : (chunkRead g k).env = .exactly g.content := rfl
    have horder := hnext.reads.order
    rw [ReadCall.touched, covered_chunkRead h hk, first_chunkRead h, last_chunkRead h hk, henv,
      completionOrder_exactly] at horder
    exact horder

end

/-- The first three chunks, read one at a time. -/
def chunkReads (g : Geometry) : List ReadCall := [chunkRead g 0, chunkRead g 1, chunkRead g 2]

/-- A fresh reader. -/
structure Fresh (g : Geometry) (s : ReadAhead) : Prop where
  coherent : s.reader.Coherent g
  order_eq : s.reader.order = []
  lastEnd_eq : s.reader.lastEnd = 0
  pos_eq : s.pos = 0
  fetched_eq : s.fetched = []

/-- The first read leaves its chunk behind the others of its window. -/
theorem first_read {s : ReadAhead} {m : Nat} (h : Fresh g s) (hm : g.maxChunks = m + 3)
    (hk : (0 + 1) * g.chunkSize ≤ g.content.length) (hhas : g.Has (m + 3)) :
    (s.after (chunkRead g 0)).reader.order = 1 :: 2 :: (List.range' 3 m ++ [0]) ∧
      2 ∈ (s.after (chunkRead g 0)).fetched := by
  have hpos : s.pos = 0 * g.chunkSize := by rw [h.pos_eq, Nat.zero_mul]
  have hone := after_chunkRead h.coherent hk (by omega) hpos
  have hn := (lt_nChunks_iff h.coherent).mpr hhas
  have hwindow : max (min (0 + g.maxChunks) s.reader.nChunks) (0 + 1) - 0 = m + 3 := by omega
  have hasked := asked_chunkRead h.coherent hk (by omega) (.inl h.lastEnd_eq) hwindow
  have hall : (List.range' 0 (m + 3)).filter (fun i => i ∉ ([] : List Nat)) =
      0 :: 1 :: 2 :: List.range' 3 m := by
    refine (List.filter_eq_self.mpr fun i _ => ?_).trans rfl
    exact decide_eq_true List.not_mem_nil
  have hlater : (List.range' 3 m).filter (fun i => i ∉ [0]) = List.range' 3 m := by
    refine List.filter_eq_self.mpr fun i hi => decide_eq_true ?_
    rw [List.mem_range'_1] at hi
    rw [List.mem_singleton]
    omega
  rw [h.order_eq, hall] at hasked
  constructor
  · rw [hone.order_eq (1 :: 2 :: (List.range' 3 m ++ [0])), Lru.evictKeys_of_le]
    · simp only [List.length_cons, List.length_append, List.length_range', List.length_nil]
      omega
    · rw [h.order_eq, hasked, List.nil_append, List.filter_cons_of_neg (by decide),
        List.filter_cons_of_pos (by decide), List.filter_cons_of_pos (by decide), hlater]
      rfl
  · rw [hone.fetched_eq, h.fetched_eq, hasked]
    simp

/-- The second read evicts the third chunk. -/
theorem second_read {s : ReadAhead} {m : Nat} (h : s.reader.Coherent g) (hm : g.maxChunks = m + 3)
    (hk : (1 + 1) * g.chunkSize ≤ g.content.length) (hhas : g.Has (m + 3))
    (hpos : s.pos = 1 * g.chunkSize) (hlast : 1 * g.chunkSize = s.reader.lastEnd)
    (horder : s.reader.order = 1 :: 2 :: (List.range' 3 m ++ [0])) :
    2 ∉ (s.after (chunkRead g 1)).reader.order := by
  have hone := after_chunkRead h hk (by omega) hpos
  have hn := (lt_nChunks_iff h).mpr hhas
  have hwindow : max (min (1 + g.maxChunks) s.reader.nChunks) (1 + 1) - 1 = m + 3 := by omega
  have hasked := asked_chunkRead h hk (by omega) (.inr hlast) hwindow
  generalize hq : (chunkRead g 1).asked s.reader = asked at hasked
  -- the last chunk of the window is not cached yet
  have hnew : m + 3 ∈ asked := by
    rw [hasked, List.mem_filter, List.mem_range'_1, horder]
    refine ⟨by omega, decide_eq_true ?_⟩
    rw [List.mem_cons, List.mem_cons, List.mem_append, List.mem_range'_1, List.mem_singleton]
    omega
  have hrest : ∀ i ∈ List.range' 3 m ++ [0] ++ asked, i ≠ 1 ∧ i ≠ 2 := by
    intro i hi
    rw [List.mem_append, List.mem_append, List.mem_range'_1, List.mem_singleton] at hi
    rcases hi with hi | hi
    · omega
    · rw [hasked, horder] at hi
      have hnot := of_decide_eq_true (List.mem_filter.mp hi).2
      rw [List.mem_cons, List.mem_cons] at hnot
      omega
  have hlen : g.maxChunks ≤ (List.range' 3 m ++ [0] ++ asked ++ [1]).length := by
    have hpositive := List.length_pos_of_mem hnew
    simp only [List.length_append, List.length_range', List.length_cons, List.length_nil]
    omega
  rw [hone.order_eq (2 :: (List.range' 3 m ++ [0] ++ asked ++ [1])), List.length_cons,
    Lru.evictKeys_cons _ rfl hlen]
  · intro hmem
    rcases List.mem_append.mp (Lru.mem_of_mem_evictKeys hmem) with hmem | hmem
    · exact (hrest 2 hmem).2 rfl
    · exact absurd hmem (by decide)
  · rw [hq, horder, List.cons_append, List.cons_append, List.filter_cons_of_neg (by decide),
      List.filter_cons_of_pos (by decide), List.filter_eq_self.mpr, List.cons_append]
    intro i hi
    refine decide_eq_true ?_
    rw [List.mem_singleton]
    exact (hrest i hi).1

/-- Reading chunk by chunk is sequential. -/
theorem chunkReads_sequential {s : ReadAhead} (h : Fresh g s) (hmax : 3 ≤ g.maxChunks)
    (hthree : 3 * g.chunkSize ≤ g.content.length) :
    Machine.Along ReadAhead.step (Sequential g.content) s (chunkReads g) := by
  have hpos₀ : s.pos = 0 * g.chunkSize := by rw [h.pos_eq, Nat.zero_mul]
  have hone := after_chunkRead h.coherent (by omega) hmax hpos₀
  have hseq₀ : Sequential g.content s (chunkRead g 0) :=
    sequential_chunkRead h.coherent (by omega) hmax hpos₀
  refine ⟨hseq₀, fun s' hs' => ?_⟩
  obtain rfl := Option.some.inj hs'
  generalize s.after (chunkRead g 0) = s₁ at *
  have htwo := after_chunkRead hone.coherent (by omega) hmax hone.pos_eq
  have hseq₁ : Sequential g.content s₁ (chunkRead g 1) :=
    sequential_chunkRead hone.coherent (by omega) hmax hone.pos_eq
  refine ⟨hseq₁, fun s' hs' => ?_⟩
  obtain rfl := Option.some.inj hs'
  generalize s₁.after (chunkRead g 1) = s₂ at *
  have hseq₂ : Sequential g.content s₂ (chunkRead g 2) :=
    sequential_chunkRead htwo.coherent (by omega) hmax htwo.pos_eq
  exact ⟨hseq₂, fun _ _ => trivial⟩

/-- **A chunk fetched twice.** With a budget of three chunks or more and an object
that does not fit, reading chunk by chunk evicts the third chunk before its turn. -/
theorem chunkReads_refetch {s : ReadAhead} (h : Fresh g s) (hmax : 3 ≤ g.maxChunks)
    (hhas : g.Has g.maxChunks) :
    Machine.Along ReadAhead.step (Sequential g.content) s (chunkReads g) ∧
      ¬ Machine.Always ReadAhead.step (fun s => s.fetched.Nodup) s (chunkReads g) := by
  obtain ⟨m, hm⟩ : ∃ m, g.maxChunks = m + 3 := ⟨g.maxChunks - 3, by omega⟩
  rw [hm] at hhas
  have hthree : 3 * g.chunkSize ≤ g.content.length := by
    have hle : 3 * g.chunkSize ≤ (m + 3) * g.chunkSize := Nat.mul_le_mul_right _ (by omega)
    have hlt : (m + 3) * g.chunkSize < g.content.length := hhas
    omega
  have hpos₀ : s.pos = 0 * g.chunkSize := by rw [h.pos_eq, Nat.zero_mul]
  have hone := after_chunkRead h.coherent (by omega) hmax hpos₀
  obtain ⟨horder, hfetched⟩ := first_read h hm (by omega) hhas
  refine ⟨chunkReads_sequential h hmax hthree, ?_⟩
  generalize hs₁ : s.after (chunkRead g 0) = s₁ at *
  have htwo := after_chunkRead hone.coherent (by omega) hmax hone.pos_eq
  have hevicted := second_read hone.coherent hm (by omega) hhas hone.pos_eq hone.lastEnd_eq.symm horder
  generalize hs₂ : s₁.after (chunkRead g 1) = s₂ at *
  have hthird := after_chunkRead htwo.coherent (by omega) hmax htwo.pos_eq
  have hasked : 2 ∈ (chunkRead g 2).asked s₂.reader := by
    have hn := (lt_nChunks_iff htwo.coherent).mpr hhas
    rw [asked_chunkRead htwo.coherent (by omega) hmax (.inr htwo.lastEnd_eq.symm) rfl,
      List.mem_filter, List.mem_range'_1]
    exact ⟨by omega, decide_eq_true hevicted⟩
  intro halways
  have hfinal := ((halways.2 _ rfl).2 _ rfl).2 _ rfl
  rw [hs₁, hs₂] at hfinal
  have hnodup : (s₂.after (chunkRead g 2)).fetched.Nodup := hfinal
  rw [hthird.fetched_eq, htwo.fetched_eq] at hnodup
  exact (List.nodup_append.mp hnodup).2.2 2 (List.mem_append_left _ hfetched) 2 hasked rfl

/-! ## The runs of a new reader -/

/-- A new reader before its first read. -/
def ReadAhead.start (content : List UInt8) (chunkSize bufferSize concurrency : Nat) : ReadAhead where
  reader := new content.length chunkSize bufferSize concurrency

theorem fresh_new {content : List UInt8} {chunkSize bufferSize : Nat} (concurrency : Nat)
    (hcontent : content.length < 2 ^ 63) (hchunk : chunkSize < 2 ^ 64) (hbuffer : bufferSize < 2 ^ 64) :
    Fresh (newGeometry content chunkSize bufferSize hcontent hchunk hbuffer)
      (.start content chunkSize bufferSize concurrency) :=
  ⟨(new_inv concurrency hcontent hchunk hbuffer).coherent, rfl, rfl, rfl, rfl⟩

theorem Fresh.inv {s : ReadAhead} (h : Fresh g s) : s.Inv g := by
  refine ⟨h.coherent, ?_, ?_, ?_⟩
  · rw [h.coherent.tracks.size_eq, h.order_eq]
    exact Nat.zero_le _
  · rw [h.fetched_eq]
    exact List.nodup_nil
  · intro i hi
    rw [h.fetched_eq] at hi
    cases hi

/-- A run whose reads all spare fetches each chunk once. -/
theorem Fresh.once {s : ReadAhead} (h : Fresh g s) {calls : List ReadCall}
    (hseq : Machine.Along ReadAhead.step (Sequential g.content) s calls)
    (hspares : Machine.Along ReadAhead.step (fun s c => c.Spares s) s calls) :
    Machine.Always ReadAhead.step (fun s => s.fetched.Nodup) s calls := by
  refine Machine.Always.imp (P := ReadAhead.Inv g) (fun _ hs => hs.nodup) ?_
  refine Machine.always_of_along ?_ (hseq.and hspares) h.inv
  rintro s c s' ⟨hc, hs⟩ hstep hinv
  obtain rfl := Option.some.inj hstep
  exact hinv.after hc hs

/-- Every run spares where the budget is two chunks or holds the object. -/
theorem Fresh.spares {s : ReadAhead} (h : Fresh g s)
    (hsizes : g.maxChunks = 2 ∨ s.reader.nChunks ≤ g.maxChunks) {calls : List ReadCall}
    (hseq : Machine.Along ReadAhead.step (Sequential g.content) s calls) :
    Machine.Along ReadAhead.step (fun s c => c.Spares s) s calls := by
  rcases hsizes with htwo | hfits
  · have hnear : s.Near g := by
      intro i hi
      rw [h.order_eq] at hi
      cases hi
    refine hseq.mono_of_invariant (I := fun s => s.Inv g ∧ s.Near g) ?_ ?_ ⟨h.inv, hnear⟩
    · rintro s c s' ⟨hinv, hnear⟩ hc hstep
      obtain rfl := Option.some.inj hstep
      exact ⟨hinv.after hc (spares_of_two hinv hnear htwo hc), hnear.after hinv htwo hc⟩
    · rintro s c ⟨hinv, hnear⟩ hc
      exact spares_of_two hinv hnear htwo hc
  · have hall : ∀ i, g.Has i → i < g.maxChunks := fun i hi =>
      Nat.lt_of_lt_of_le ((lt_nChunks_iff h.coherent).mpr hi) hfits
    refine hseq.mono_of_invariant (I := ReadAhead.Inv g) ?_ ?_ h.inv
    · rintro s c s' hinv hc hstep
      obtain rfl := Option.some.inj hstep
      exact hinv.after hc (spares_of_fits hinv hall)
    · exact fun s c hinv _ => spares_of_fits hinv hall

/-- The runs of a reader fetch each chunk once just when its budget is two chunks or
holds the object. -/
theorem Fresh.always_once_iff {s : ReadAhead} (h : Fresh g s) (hmin : 2 ≤ g.maxChunks) :
    (∀ calls, Machine.Along ReadAhead.step (Sequential g.content) s calls →
      Machine.Always ReadAhead.step (fun s => s.fetched.Nodup) s calls) ↔
      g.maxChunks = 2 ∨ s.reader.nChunks ≤ g.maxChunks := by
  constructor
  · intro hall
    by_contra hnot
    have hhas := (lt_nChunks_iff h.coherent).mp (show g.maxChunks < s.reader.nChunks by omega)
    obtain ⟨hseq, hrefetch⟩ := chunkReads_refetch h (by omega) hhas
    exact hrefetch (hall _ hseq)
  · exact fun hsizes calls hseq => h.once hseq (h.spares hsizes hseq)

/-- **Read-ahead.** For every object, chunk size and buffer size, a run of sequential
reads that all spare what has been fetched ahead fetches each chunk once. All runs do
just when the budget is two chunks or holds the object. -/
theorem read_ahead_once (content : List UInt8) (hcontent : content.length < 2 ^ 63)
    (chunkSize bufferSize concurrency : Nat) (hchunk : chunkSize < 2 ^ 64)
    (hbuffer : bufferSize < 2 ^ 64) :
    (∀ calls, Machine.Along ReadAhead.step (Sequential content)
        (.start content chunkSize bufferSize concurrency) calls →
      Machine.Along ReadAhead.step (fun s c => c.Spares s)
        (.start content chunkSize bufferSize concurrency) calls →
      Machine.Always ReadAhead.step (fun s => s.fetched.Nodup)
        (.start content chunkSize bufferSize concurrency) calls) ∧
    ((∀ calls, Machine.Along ReadAhead.step (Sequential content)
        (.start content chunkSize bufferSize concurrency) calls →
      Machine.Always ReadAhead.step (fun s => s.fetched.Nodup)
        (.start content chunkSize bufferSize concurrency) calls) ↔
      (new content.length chunkSize bufferSize concurrency).maxChunks = 2 ∨
        (new content.length chunkSize bufferSize concurrency).nChunks ≤
          (new content.length chunkSize bufferSize concurrency).maxChunks) := by
  have hfresh := @fresh_new content chunkSize bufferSize concurrency hcontent hchunk hbuffer
  exact ⟨fun calls => hfresh.once, hfresh.always_once_iff (Nat.le_max_right _ _)⟩

namespace ReadAheadSample

/-- An object of three chunks of 64 KiB and one byte more. -/
def fourChunks : List UInt8 := List.replicate 196609 0

def threeReads : List ReadCall :=
  [⟨0, 65536, .exactly fourChunks⟩, ⟨65536, 65536, .exactly fourChunks⟩,
    ⟨131072, 65536, .exactly fourChunks⟩]

/-- A budget of four chunks holds the object. -/
theorem read_ahead_four_chunks :
    Machine.Along ReadAhead.step (Sequential fourChunks) (.start fourChunks 65536 262144 4)
      threeReads ∧
    Machine.Always ReadAhead.step (fun s => s.fetched.Nodup) (.start fourChunks 65536 262144 4)
      threeReads := by
  have hlen : fourChunks.length = 196609 := List.length_replicate
  have hfresh := @fresh_new fourChunks 65536 262144 4 (by rw [hlen]; decide) (by decide) (by decide)
  have hseq : Machine.Along ReadAhead.step (Sequential fourChunks)
      (.start fourChunks 65536 262144 4) threeReads := by
    refine chunkReads_sequential hfresh ?_ ?_
    · show 3 ≤ max (262144 / max 65536 (64 * 1024)) 2
      decide
    · show 3 * max 65536 (64 * 1024) ≤ fourChunks.length
      rw [hlen]
      decide
  refine ⟨hseq, (read_ahead_once fourChunks (by rw [hlen]; decide) 65536 262144 4 (by decide)
    (by decide)).1 threeReads hseq (hfresh.spares (.inr ?_) hseq)⟩
  show (new fourChunks.length 65536 262144 4).nChunks ≤ max (262144 / max 65536 (64 * 1024)) 2
  rw [hlen]
  decide

/-- With a budget of three chunks the third is fetched again when its turn comes. -/
theorem read_ahead_refetches :
    Machine.Along ReadAhead.step (Sequential fourChunks) (.start fourChunks 65536 196608 4)
      threeReads ∧
    ¬ Machine.Always ReadAhead.step (fun s => s.fetched.Nodup) (.start fourChunks 65536 196608 4)
      threeReads := by
  have hlen : fourChunks.length = 196609 := List.length_replicate
  have hfresh := @fresh_new fourChunks 65536 196608 4 (by rw [hlen]; decide) (by decide) (by decide)
  refine chunkReads_refetch hfresh ?_ ?_
  · show 3 ≤ max (196608 / max 65536 (64 * 1024)) 2
    decide
  · show max (196608 / max 65536 (64 * 1024)) 2 * max 65536 (64 * 1024) < fourChunks.length
    rw [hlen]
    decide

end ReadAheadSample

end ChunkReader

end Rs5cmd
