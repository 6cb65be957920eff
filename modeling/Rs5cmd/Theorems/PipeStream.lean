import Rs5cmd.Command.PipeReader
import Rs5cmd.Storage.S3.PartPlan

/-!
# What `pipe` stores

However the input comes in and in whatever order the parts end, the buffers that are
read are the parts of the stream: the pool of its tasks runs as the one of a file's
parts does, and what is known of those holds of the stream.
-/

namespace Rs5cmd

/-! ## Reading -/

/-- Reading on to the end of the input fails. -/
inductive ReadFails (partSize : Nat) : ByteFeed → Prop
  | here {reader reader' e} (h : readPart reader partSize = (.error e, reader')) :
      ReadFails partSize reader
  | later {reader reader' b bs} (h : readPart reader partSize = (.ok (b :: bs), reader'))
      (hrest : ReadFails partSize reader') : ReadFails partSize reader

section Reading

variable {partSize : Nat} {reader reader' : ByteFeed} {data buf : List UInt8}

/-- A part read from what is left of the stream is its next part. -/
theorem readPart_eq_ok {i : Nat} (hrest : reader.rest = data.drop (i * partSize))
    (h : readPart reader partSize = (.ok buf, reader')) :
    buf = partBody data partSize i ∧ reader'.rest = data.drop ((i + 1) * partSize) := by
  obtain ⟨hbuf, hrest'⟩ := Feed.fill_eq_ok (Nat.le_refl _) h
  rw [hbuf, hrest', hrest, partBody_eq, List.drop_drop, Nat.succ_mul]
  exact ⟨rfl, rfl⟩

/-- A part has no bytes just when the stream has ended before it. -/
theorem partBody_eq_nil (hpos : 0 < partSize) {i : Nat} :
    partBody data partSize i = [] ↔ nParts data.length partSize ≤ i := by
  rw [partBody_eq, List.take_eq_nil_iff, List.drop_eq_nil_iff, nParts_le_iff hpos]
  exact or_iff_right (Nat.pos_iff_ne_zero.mp hpos)

theorem not_readFails_of_end (h : readPart reader partSize = (.ok [], reader')) :
    ¬ ReadFails partSize reader := by
  intro hfails
  cases hfails with
  | here h' =>
    rw [h'] at h
    cases (Prod.mk.inj h).1
  | later h' _ =>
    rw [h'] at h
    cases Except.ok.inj (Prod.mk.inj h).1

theorem readFails_of_part {b : UInt8} {bs : List UInt8}
    (h : readPart reader partSize = (.ok (b :: bs), reader')) :
    ReadFails partSize reader ↔ ReadFails partSize reader' := by
  constructor
  · intro hfails
    cases hfails with
    | here h' =>
      rw [h'] at h
      cases (Prod.mk.inj h).1
    | later h' hrest =>
      rw [h'] at h
      rwa [← (Prod.mk.inj h).2]
  · exact .later h

end Reading

/-! ## One step -/

section Steps

variable {env : UploadEnv} {data : List UInt8} {partSize concurrency : Nat} {first : ByteFeed}

/-- The store as the tasks of `pipe` see it: no file is opened. -/
def sendingOnly (env : UploadEnv) : UploadEnv := { env with readFrom := fun _ => none }

/-- The pool that the tasks of a stream run as. -/
def streamTasks (env : UploadEnv) (data : List UInt8) (partSize concurrency : Nat) :
    Tasks (List (Nat × List UInt8)) UploadPhase (Except StorageError CompletedPart) Unit :=
  fileTasks (sendingOnly env) data partSize concurrency (nParts data.length partSize)

/-- What the loop knows of the stream. `first` is the feed that the parts after the
first are read from. -/
def Producer.Knows (data : List UInt8) (partSize : Nat) (first reader : ByteFeed)
    (pool : Pool (List (Nat × List UInt8)) UploadPhase (Except StorageError CompletedPart)) :
    Producer → Prop
  | .holding buf =>
    pool.next < nParts data.length partSize ∧ buf = partBody data partSize pool.next ∧
      reader.rest = data.drop ((pool.next + 1) * partSize) ∧
      (ReadFails partSize reader ↔ ReadFails partSize first)
  | .reading =>
    pool.next ≤ nParts data.length partSize ∧ reader.rest = data.drop (pool.next * partSize) ∧
      (ReadFails partSize reader ↔ ReadFails partSize first)
  | .joining joined =>
    pool.next = nParts data.length partSize ∧ ¬ ReadFails partSize first ∧
      (pool.results.take joined.length).map Prod.snd = joined.map .ok
  | .returned (.error _) => ReadFails partSize first ∨ ∃ t ∈ pool.results, ∃ e, t.2 = .error e
  | .returned (.ok parts) =>
    pool.next = nParts data.length partSize ∧ ¬ ReadFails partSize first ∧ pool.inFlight = [] ∧
      ∃ as, collectResults pool.results = .ok as ∧ parts = sortParts as

/-- The invariant of the loop and its tasks. -/
structure PipeInv (env : UploadEnv) (data : List UInt8) (partSize concurrency : Nat)
    (first : ByteFeed) (s : PipeState) : Prop where
  pool : ∃ sched, Machine.run (Pool.step (streamTasks env data partSize concurrency))
    { shared := [] } sched = some s.pool
  sending : ∀ t ∈ s.pool.inFlight, ∃ body, t.2 = .sending body
  permits : s.pool.inFlight.length ≤ concurrency
  number : s.partNumber = s.pool.next + 1
  producer : s.producer.Knows data partSize first s.reader s.pool

/-- A task ends with its request. -/
theorem pipeWork_ends (env : UploadEnv) (i : Nat) (body : List UInt8)
    (stored : List (Nat × List UInt8)) :
    ∃ stored' r, pipeWork env i stored (.sending body) = some (stored', .inr r) := by
  cases hsent : ((env.uploadPart i).send stored (.ok ((i + 1, body) :: stored))).2 with
  | error e => exact ⟨_, _, by simp only [pipeWork, hsent]; rfl⟩
  | ok u => exact ⟨_, _, by simp only [pipeWork, hsent]; rfl⟩

/-- A task spawned for the next part is started, and reads its part, in the pool of
the stream. -/
theorem spawned_pool {s : PipeState} (h : PipeInv env data partSize concurrency first s)
    (hnext : s.pool.next < nParts data.length partSize)
    (hroom : s.pool.inFlight.length < concurrency) :
    ∃ sched, Machine.run (Pool.step (streamTasks env data partSize concurrency)) { shared := [] } sched =
      some (s.spawned (partBody data partSize s.pool.next)).pool := by
  obtain ⟨sched, hrun⟩ := h.pool
  have hwf := Pool.run_wf hrun
  have hnone : s.pool.inFlight.lookup s.pool.next = none := by
    refine List.lookup_eq_none_iff.mpr fun t ht => ?_
    have hlt := hwf.lt_next t ht
    simp only [bne_iff_ne, ne_eq]
    omega
  have hothers : (s.pool.inFlight ++ [(s.pool.next, UploadPhase.reading)]).filter
      (fun t => t.1 ≠ s.pool.next) = s.pool.inFlight := by
    rw [List.filter_append, List.filter_eq_self.mpr fun t ht => by
      have hlt := hwf.lt_next t ht
      simp only [ne_eq, decide_eq_true_eq]
      omega]
    simp
  refine ⟨sched ++ [.start, .work s.pool.next ()], ?_⟩
  rw [Machine.run_append, hrun, Option.bind_some]
  have hstart : Pool.step (streamTasks env data partSize concurrency) s.pool .start =
      some { s.pool with
        next := s.pool.next + 1
        inFlight := s.pool.inFlight ++ [(s.pool.next, .reading)] } := if_pos ⟨hnext, hroom⟩
  have hlookup : (s.pool.inFlight ++ [(s.pool.next, UploadPhase.reading)]).lookup s.pool.next =
      some .reading := by
    rw [List.lookup_append, hnone]
    simp
  have hnumber : (s.partNumber - 1).toNat = s.pool.next := by
    rw [h.number]
    omega
  refine Machine.run_cons_eq_some.mpr ⟨_, hstart, Machine.run_cons_eq_some.mpr ⟨_, ?_, rfl⟩⟩
  show (List.lookup _ _).bind _ = _
  rw [hlookup]
  show some (Pool.settle _ _ _ (.inl (UploadPhase.sending (partBody data partSize s.pool.next)))) = _
  rw [Pool.settle, Pool.others]
  simp only [PipeState.spawned, hnumber, hothers]

/-- A part that is read is the next one, or the input has ended. -/
theorem read_inv (hpos : 0 < partSize) {s : PipeState}
    (h : PipeInv env data partSize concurrency first s) (hreading : s.producer = .reading)
    {s' : PipeState} (hstep : pipeStep env partSize concurrency s .read = some s') :
    PipeInv env data partSize concurrency first s' := by
  have hknows := h.producer
  rw [hreading] at hknows
  obtain ⟨hnext, hrest, hfails⟩ := hknows
  have hfit : partBody data partSize s.pool.next = [] ↔ nParts data.length partSize ≤ s.pool.next :=
    partBody_eq_nil hpos
  simp only [pipeStep, hreading] at hstep
  split at hstep
  · rename_i e reader hread
    obtain rfl := Option.some.inj hstep
    exact { h with producer := .inl (hfails.mp (.here hread)) }
  · rename_i reader hread
    obtain rfl := Option.some.inj hstep
    obtain ⟨hbuf, -⟩ := readPart_eq_ok hrest hread
    refine { h with producer := ⟨Nat.le_antisymm hnext (hfit.mp hbuf.symm), ?_, rfl⟩ }
    rw [← hfails]
    exact not_readFails_of_end hread
  · rename_i b bs reader hread
    obtain rfl := Option.some.inj hstep
    obtain ⟨hbuf, hrest'⟩ := readPart_eq_ok hrest hread
    refine { h with producer := ⟨?_, hbuf, hrest', ?_⟩ }
    · refine Nat.lt_of_not_le fun hle => ?_
      rw [hfit.mpr hle] at hbuf
      cases hbuf
    · rw [← hfails, readFails_of_part hread]

/-- A task that is spawned is the one of the next part. -/
theorem spawn_inv (hparts : nParts data.length partSize < 2 ^ 31 - 1) {s : PipeState}
    (h : PipeInv env data partSize concurrency first s) {buf : List UInt8}
    (hholding : s.producer = .holding buf) (hroom : s.pool.inFlight.length < concurrency) :
    PipeInv env data partSize concurrency first (s.spawned buf) := by
  have hknows := h.producer
  rw [hholding] at hknows
  obtain ⟨hnext, rfl, hrest, hfails⟩ := hknows
  refine ⟨spawned_pool h hnext hroom, ?_, hroom, ?_, ⟨hnext, hrest, hfails⟩⟩
  · intro t ht
    rcases List.mem_cons.mp ht with rfl | ht
    · exact ⟨_, rfl⟩
    · exact h.sending t ht
  · show (s.partNumber + 1).bmod (2 ^ 32) = ((s.pool.next + 1 : Nat) : Int) + 1
    rw [h.number, Int.bmod_eq_of_le (by omega) (by omega)]
    omega

/-- A task that ends leaves its result behind those there are. -/
theorem knows_settle {reader : ByteFeed}
    {pool : Pool (List (Nat × List UInt8)) UploadPhase (Except StorageError CompletedPart)}
    {producer : Producer} (h : producer.Knows data partSize first reader pool)
    (hgoing : ∀ r, producer ≠ .returned r) {i : Nat} {stored : List (Nat × List UInt8)}
    {r : Except StorageError CompletedPart} :
    producer.Knows data partSize first reader (pool.settle i stored (.inr r)) := by
  cases producer with
  | holding buf => exact h
  | reading => exact h
  | joining joined =>
    obtain ⟨hnext, hfails, htake⟩ := h
    refine ⟨hnext, hfails, ?_⟩
    have hle : joined.length ≤ pool.results.length := by
      have hlen := congrArg List.length htake
      rw [List.length_map, List.length_map, List.length_take] at hlen
      omega
    show ((pool.results ++ [(i, r)]).take joined.length).map Prod.snd = _
    rw [List.take_append_of_le_length hle]
    exact htake
  | returned r => exact absurd rfl (hgoing r)

theorem send_inv {s : PipeState} (h : PipeInv env data partSize concurrency first s)
    (hgoing : ∀ r, s.producer ≠ .returned r) {i : Nat} {ph : UploadPhase}
    (hph : s.pool.inFlight.lookup i = some ph)
    {out : List (Nat × List UInt8) × (UploadPhase ⊕ Except StorageError CompletedPart)}
    (hwork : pipeWork env i s.pool.shared ph = some out) :
    PipeInv env data partSize concurrency first { s with pool := s.pool.settle i out.1 out.2 } := by
  obtain ⟨sched, hrun⟩ := h.pool
  obtain ⟨body, hbody⟩ := h.sending _ (Pool.mem_of_lookup hph)
  obtain rfl : ph = .sending body := hbody
  obtain ⟨r, hr⟩ : ∃ r, out.2 = .inr r := by
    obtain ⟨stored, r, hends⟩ := pipeWork_ends env i body s.pool.shared
    obtain rfl := Option.some.inj (hwork.symm.trans hends)
    exact ⟨r, rfl⟩
  have hle : (s.pool.others i).length ≤ s.pool.inFlight.length := List.length_filter_le _ _
  refine ⟨⟨sched ++ [.work i ()], ?_⟩, ?_, ?_, ?_, ?_⟩
  · rw [Machine.run_append, hrun, Option.bind_some]
    refine Machine.run_cons_eq_some.mpr ⟨_, ?_, rfl⟩
    show (List.lookup _ _).bind _ = _
    rw [hph, Option.bind_some]
    have htask : (streamTasks env data partSize concurrency).work i (.sending body) ()
        s.pool.shared = some out := hwork
    rw [htask]
    rfl
  · rw [hr]
    exact fun t ht => h.sending t (List.mem_of_mem_filter ht)
  · rw [hr]
    exact Nat.le_trans hle h.permits
  · rw [hr]
    exact h.number
  · rw [hr]
    exact knows_settle h.producer hgoing

/-- A result that is joined is the next one, and the end finds all of them joined. -/
theorem join_inv {s : PipeState} (h : PipeInv env data partSize concurrency first s)
    {joined : List CompletedPart} (hjoining : s.producer = .joining joined) {s' : PipeState}
    (hstep : pipeStep env partSize concurrency s .join = some s') :
    PipeInv env data partSize concurrency first s' := by
  have hknows := h.producer
  rw [hjoining] at hknows
  obtain ⟨hnext, hfails, htake⟩ := hknows
  simp only [pipeStep, hjoining] at hstep
  split at hstep
  · rename_i i e hresult
    obtain rfl := Option.some.inj hstep
    exact { h with producer := .inr ⟨_, List.mem_of_getElem? hresult, e, rfl⟩ }
  · rename_i i part hresult
    obtain rfl := Option.some.inj hstep
    refine { h with producer := ⟨hnext, hfails, ?_⟩ }
    rw [List.length_append, List.length_singleton, List.take_add_one, hresult, List.map_append, htake]
    simp
  · rename_i hnone
    split at hstep
    · rename_i hempty
      obtain rfl := Option.some.inj hstep
      refine { h with producer := ⟨hnext, hfails, List.isEmpty_iff.mp hempty, joined, ?_, rfl⟩ }
      rw [collectResults_eq_ok, ← htake, List.take_of_length_le (List.getElem?_eq_none_iff.mp hnone)]
    · cases hstep

/-- Everything a step can do. -/
theorem pipeStep_cases {s s' : PipeState} {e : PipeEvent}
    (h : pipeStep env partSize concurrency s e = some s') :
    (∃ buf, s.producer = .holding buf ∧ s.pool.inFlight.length < concurrency ∧ s' = s.spawned buf) ∨
    (e = .read ∧ s.producer = .reading) ∨
    (∃ i ph out, (∀ r, s.producer ≠ .returned r) ∧ s.pool.inFlight.lookup i = some ph ∧
      pipeWork env i s.pool.shared ph = some out ∧
      s' = { s with pool := s.pool.settle i out.1 out.2 }) ∨
    (e = .join ∧ ∃ joined, s.producer = .joining joined) := by
  cases e with
  | spawn =>
    cases hproducer : s.producer with
    | holding buf =>
      simp only [pipeStep, hproducer] at h
      split at h
      · rename_i hroom
        exact .inl ⟨buf, rfl, hroom, (Option.some.inj h).symm⟩
      · cases h
    | reading => simp [pipeStep, hproducer] at h
    | joining joined => simp [pipeStep, hproducer] at h
    | returned r => simp [pipeStep, hproducer] at h
  | read =>
    cases hproducer : s.producer with
    | reading => exact .inr (.inl ⟨rfl, rfl⟩)
    | holding buf => simp [pipeStep, hproducer] at h
    | joining joined => simp [pipeStep, hproducer] at h
    | returned r => simp [pipeStep, hproducer] at h
  | send i =>
    obtain ⟨hgoing, h⟩ : (∀ r, s.producer ≠ .returned r) ∧
        ((s.pool.inFlight.lookup i).bind fun ph => (pipeWork env i s.pool.shared ph).map
          fun out => { s with pool := s.pool.settle i out.1 out.2 }) = some s' := by
      cases hproducer : s.producer with
      | returned r => simp [pipeStep, hproducer] at h
      | holding buf => exact ⟨by simp, by simpa only [pipeStep, hproducer] using h⟩
      | reading => exact ⟨by simp, by simpa only [pipeStep, hproducer] using h⟩
      | joining joined => exact ⟨by simp, by simpa only [pipeStep, hproducer] using h⟩
    obtain ⟨ph, hph, h⟩ := Option.bind_eq_some_iff.mp h
    obtain ⟨out, hwork, rfl⟩ := Option.map_eq_some_iff.mp h
    exact .inr (.inr (.inl ⟨i, ph, out, hgoing, hph, hwork, rfl⟩))
  | join =>
    cases hproducer : s.producer with
    | joining joined => exact .inr (.inr (.inr ⟨rfl, joined, rfl⟩))
    | holding buf => simp [pipeStep, hproducer] at h
    | reading => simp [pipeStep, hproducer] at h
    | returned r => simp [pipeStep, hproducer] at h

/-- **Every step keeps the invariant.** -/
theorem pipeStep_inv (hpos : 0 < partSize) (hparts : nParts data.length partSize < 2 ^ 31 - 1)
    (s : PipeState) (e : PipeEvent) (s' : PipeState)
    (hstep : pipeStep env partSize concurrency s e = some s')
    (h : PipeInv env data partSize concurrency first s) :
    PipeInv env data partSize concurrency first s' := by
  obtain ⟨buf, hholding, hroom, rfl⟩ | ⟨rfl, hreading⟩ | ⟨i, ph, out, hgoing, hph, hwork, rfl⟩ |
    ⟨rfl, joined, hjoining⟩ := pipeStep_cases hstep
  · exact spawn_inv hparts h hholding hroom
  · exact read_inv hpos h hreading hstep
  · exact send_inv h hgoing hph hwork
  · exact join_inv h hjoining hstep

/-- The invariant holds once the first part has been read. -/
theorem pipeInv_start (hpos : 0 < partSize) {reader : ByteFeed} {buf : List UInt8}
    (hread : readPart reader partSize = (.ok buf, first)) (hfull : partSize ≤ buf.length) :
    PipeInv env reader.rest partSize concurrency first { reader := first, producer := .holding buf } := by
  have hall : reader.rest = reader.rest.drop (0 * partSize) := by simp
  obtain ⟨hbuf, hrest⟩ := readPart_eq_ok hall hread
  refine ⟨⟨[], rfl⟩, by simp, Nat.zero_le _, rfl, ?_, hbuf, hrest, Iff.rfl⟩
  refine Nat.lt_of_not_le fun hle => ?_
  rw [hbuf, (partBody_eq_nil hpos).mpr hle] at hfull
  exact absurd hfull (Nat.not_le_of_lt hpos)

/-! ## Whole runs -/

def PipeState.Returned (s : PipeState) : Prop := ∃ r, s.producer = .returned r

/-- How much a run has still to do: three steps for each part that is not spawned, the
tasks in flight, and the joins. -/
def PipeState.left (total : Nat) (s : PipeState) : Nat :=
  3 * (total - s.pool.next) + s.pool.inFlight.length +
    match s.producer with
    | .holding _ => total + 3
    | .reading => total + 4
    | .joining joined => total - joined.length + 2
    | .returned _ => 0

/-- A state that has not returned has a step, and it leaves less to do. -/
theorem exists_pipeStep (hconc : 0 < concurrency) {s : PipeState}
    (h : PipeInv env data partSize concurrency first s) (hgoing : ∀ r, s.producer ≠ .returned r) :
    ∃ e s', pipeStep env partSize concurrency s e = some s' ∧
      s'.left (nParts data.length partSize) < s.left (nParts data.length partSize) := by
  have hknows := h.producer
  -- a task in flight can always end
  have hsend : ∀ t ∈ s.pool.inFlight, ∃ s', pipeStep env partSize concurrency s (.send t.1) = some s' ∧
      s'.left (nParts data.length partSize) < s.left (nParts data.length partSize) := by
    intro t ht
    obtain ⟨sched, hrun⟩ := h.pool
    obtain ⟨ph, hph⟩ : ∃ ph, s.pool.inFlight.lookup t.1 = some ph := by
      rw [← Option.isSome_iff_exists, List.lookup_isSome_iff]
      exact ⟨t, ht, by simp⟩
    obtain ⟨body, hbody⟩ := h.sending _ (Pool.mem_of_lookup hph)
    obtain rfl : ph = .sending body := hbody
    obtain ⟨stored, r, hends⟩ := pipeWork_ends env t.1 body s.pool.shared
    refine ⟨{ s with pool := s.pool.settle t.1 stored (.inr r) }, ?_, ?_⟩
    · cases hproducer : s.producer with
      | returned r => exact absurd hproducer (hgoing r)
      | holding buf => simp only [pipeStep, hproducer, hph, Option.bind_some, hends, Option.map_some]
      | reading => simp only [pipeStep, hproducer, hph, Option.bind_some, hends, Option.map_some]
      | joining joined =>
        simp only [pipeStep, hproducer, hph, Option.bind_some, hends, Option.map_some]
    · have hperm := (Pool.perm_others (Pool.run_wf hrun).nodup (Pool.mem_of_lookup hph)).length_eq
      rw [List.length_map, List.length_cons, List.length_map] at hperm
      simp only [PipeState.left, Pool.settle]
      omega
  cases hproducer : s.producer with
  | returned r => exact absurd hproducer (hgoing r)
  | holding buf =>
    rw [hproducer] at hknows
    by_cases hroom : s.pool.inFlight.length < concurrency
    · refine ⟨.spawn, s.spawned buf, by simp only [pipeStep, hproducer, if_pos hroom], ?_⟩
      have hnext := hknows.1
      simp only [PipeState.left, PipeState.spawned, hproducer, List.length_cons]
      omega
    · obtain ⟨t, ht⟩ := List.exists_mem_of_length_pos
        (Nat.lt_of_lt_of_le hconc (Nat.le_of_not_lt hroom))
      obtain ⟨s', hs'⟩ := hsend t ht
      exact ⟨_, s', hs'⟩
  | reading =>
    refine ⟨.read, ?_⟩
    simp only [pipeStep, hproducer]
    rcases readPart s.reader partSize with ⟨e | buf, reader⟩
    · exact ⟨_, rfl, by simp only [PipeState.left, hproducer]; omega⟩
    · cases buf with
      | nil => exact ⟨_, rfl, by simp only [PipeState.left, hproducer, List.length_nil]; omega⟩
      | cons b bs => exact ⟨_, rfl, by simp only [PipeState.left, hproducer]; omega⟩
  | joining joined =>
    rw [hproducer] at hknows
    cases hresult : s.pool.results[joined.length]? with
    | some t =>
      obtain ⟨sched, hrun⟩ := h.pool
      have hpartitioned : Pool.Partitioned (streamTasks env data partSize concurrency) s.pool :=
        Machine.run_invariant (fun _ _ _ => Pool.step_partitioned) hrun
          ⟨List.Perm.refl _, Nat.zero_le _⟩
      have hlen := hpartitioned.perm.length_eq
      rw [List.length_append, List.length_map, List.length_map, List.length_range] at hlen
      have hlt := (List.getElem?_eq_some_iff.mp hresult).1
      have hnext : s.pool.next = nParts data.length partSize := hknows.1
      refine ⟨.join, ?_⟩
      obtain ⟨i, e | part⟩ := t
      · refine ⟨{ s with producer := .returned (.error e) },
          by simp only [pipeStep, hproducer, hresult], ?_⟩
        simp only [PipeState.left, hproducer]
        omega
      · refine ⟨{ s with producer := .joining (joined ++ [part]) },
          by simp only [pipeStep, hproducer, hresult], ?_⟩
        simp only [PipeState.left, hproducer, List.length_append, List.length_singleton]
        omega
    | none =>
      by_cases hempty : s.pool.inFlight = []
      · refine ⟨.join, { s with producer := .returned (.ok (sortParts joined)) }, ?_, ?_⟩
        · simp only [pipeStep, hproducer, hresult, hempty, List.isEmpty_nil, if_true]
        · simp only [PipeState.left, hproducer]
          omega
      · obtain ⟨t, ht⟩ := List.exists_mem_of_ne_nil _ hempty
        obtain ⟨s', hs'⟩ := hsend t ht
        exact ⟨_, s', hs'⟩

/-- **The parts come to an end** under some schedule. -/
theorem exists_uploadPartsFromFeed (hpos : 0 < partSize) (hconc : 0 < concurrency)
    (hparts : nParts data.length partSize < 2 ^ 31 - 1) {buf : List UInt8}
    (hstart : PipeInv env data partSize concurrency first { reader := first, producer := .holding buf }) :
    ∃ sched out, uploadPartsFromFeed env partSize concurrency sched buf first = some out := by
  have hprogress : ∀ s, PipeInv env data partSize concurrency first s → ¬ s.Returned →
      ∃ e s', pipeStep env partSize concurrency s e = some s' ∧
        PipeInv env data partSize concurrency first s' ∧
        s'.left (nParts data.length partSize) < s.left (nParts data.length partSize) := by
    intro s h hgoing
    obtain ⟨e, s', hstep, hlt⟩ := exists_pipeStep hconc h fun r hr => hgoing ⟨r, hr⟩
    exact ⟨e, s', hstep, pipeStep_inv hpos hparts s e s' hstep h, hlt⟩
  obtain ⟨sched, s, hrun, -, r, hr⟩ := Machine.exists_run_final _ hprogress _ hstart
  refine ⟨sched, (s.pool.shared, r), ?_⟩
  rw [uploadPartsFromFeed, hrun, Option.bind_some]
  simp only [hr]

/-- What the parts of a stream come to: they all end well just when no read and no
part fails, and then they are its parts, in order, and the store has them. -/
theorem uploadPartsFromFeed_spec (hpos : 0 < partSize)
    (hparts : nParts data.length partSize < 2 ^ 31 - 1) {buf : List UInt8}
    (hstart : PipeInv env data partSize concurrency first { reader := first, producer := .holding buf })
    {sched : List PipeEvent} {stored : List (Nat × List UInt8)}
    {r : Except StorageError (List CompletedPart)}
    (h : uploadPartsFromFeed env partSize concurrency sched buf first = some (stored, r)) :
    ((∃ ps, r = .ok ps) ↔ ¬ ReadFails partSize first ∧
        ∀ i < nParts data.length partSize, env.uploadPart i = none) ∧
      ∀ ps, r = .ok ps → ps = allParts env data partSize (nParts data.length partSize) ∧
        ∀ i < nParts data.length partSize, HasPart data partSize i stored := by
  obtain ⟨s, hrun, h⟩ := Option.bind_eq_some_iff.mp h
  have hinv := Machine.run_invariant (pipeStep_inv hpos hparts) hrun hstart
  obtain ⟨poolSched, hpool⟩ := hinv.pool
  have hknows := hinv.producer
  have hdone := fileTasks_knows hpool
  cases hproducer : s.producer with
  | holding buf => simp [hproducer] at h
  | reading => simp [hproducer] at h
  | joining joined => simp [hproducer] at h
  | returned r' =>
    rw [hproducer] at h hknows
    obtain ⟨rfl, rfl⟩ := Prod.mk.inj (Option.some.inj h)
    cases r' with
    | error e =>
      refine ⟨iff_of_false ?_ ?_, ?_⟩
      · rintro ⟨ps, hps⟩
        cases hps
      · rintro ⟨hread, hsend⟩
        rcases hknows with hfails | ⟨t, ht, e', he'⟩
        · exact hread hfails
        · have hfaultless : PartFaultless (sendingOnly env) t.1 :=
            ⟨rfl, hsend t.1 (Pool.lt_count_of_mem_results hpool ht)⟩
          obtain ⟨cp, hcp⟩ := (hdone t ht).2.mpr hfaultless
          rw [hcp] at he'
          cases he'
      · intro ps hps
        cases hps
    | ok parts =>
      obtain ⟨hnext, hread, hempty, as, has, rfl⟩ := hknows
      have hc : Pool.Complete (streamTasks env data partSize concurrency) s.pool :=
        ⟨Nat.le_of_eq hnext.symm, hempty⟩
      have hfaultless := (collectResults_fileTasks hpool hc).1.mp ⟨as, has⟩
      refine ⟨iff_of_true ⟨_, rfl⟩ ⟨hread, fun i hi => (hfaultless i hi).2⟩, ?_⟩
      intro ps hps
      obtain rfl := Except.ok.inj hps
      refine ⟨sortParts_fileTasks hpool hc has, fun i hi => ?_⟩
      obtain ⟨t, ht, rfl⟩ := List.mem_map.mp
        ((Pool.results_perm hpool hc).mem_iff.mpr (List.mem_range.mpr hi))
      obtain ⟨cp, hcp⟩ := ok_of_collectResults has t ht
      exact ((hdone t ht).1 cp hcp).2

end Steps

/-! ## Whole uploads -/

/-- Something of the stream fails: reading it, or sending one of its parts. -/
inductive StreamFails (env : UploadEnv) (partSize : Nat) (reader : ByteFeed) : Prop
  | first {e rest} (h : readPart reader partSize = (.error e, rest))
  | later {buf rest} (h : readPart reader partSize = (.ok buf, rest)) (hfull : partSize ≤ buf.length)
      (hfails : ReadFails partSize rest)
  | part {buf rest} (h : readPart reader partSize = (.ok buf, rest)) (hfull : partSize ≤ buf.length)
      {i : Nat} (hi : i < nParts reader.rest.length partSize) (hfault : env.uploadPart i ≠ none)

/-- The parts are those of the stream: in order they are the stream, all but the last
are full, none is empty, and the store has each under its number. -/
structure PartsOf (partSize : Nat) (data : List UInt8) (stored : List (Nat × List UInt8))
    (parts : List CompletedPart) (bodies : List (List UInt8)) : Prop where
  numbered : parts.map CompletedPart.partNumber = List.range' 1 bodies.length
  stored : ∀ i body, bodies[i]? = some body → stored.lookup (i + 1) = some body
  stream : bodies.flatten = data
  full : ∀ body ∈ bodies.dropLast, body.length = partSize
  sizes : ∀ body ∈ bodies, body ≠ [] ∧ body.length ≤ partSize

/-- What `put_multipart_reader` makes of a stream. -/
structure StoresStream (env : UploadEnv) (partSize : Nat) (reader : ByteFeed) (metadata : Metadata)
    (before : Option ObjectContent) (out : PipeOutcome) : Prop where
  single : ∀ body, .putObject body ∈ out.requests ↔ body = reader.rest ∧
    reader.rest.length < partSize ∧ ∃ rest, readPart reader partSize = (.ok body, rest)
  parts : ∀ ps, .complete ps ∈ out.requests → ∃ bodies, PartsOf partSize reader.rest out.stored ps bodies
  ok : out.result = .ok () → out.object = some ⟨reader.rest, metadata.pipeAttributes⟩
  failed : StreamFails env partSize reader → (∃ e, out.result = .error e) ∧ out.object = before ∧
    ∀ ps, .complete ps ∉ out.requests
  faultless : ¬ StreamFails env partSize reader → env.putObject = none →
    env.createMultipartUpload = none → env.uploadId ≠ none → env.completeMultipartUpload = none →
    out.result = .ok ()

section Uploads

variable {env : UploadEnv} {data : List UInt8} {partSize : Nat} {reader : ByteFeed}

theorem length_partBody (data : List UInt8) (partSize i : Nat) :
    (partBody data partSize i).length = min partSize (data.length - i * partSize) := by
  rw [partBody_eq, List.length_take, List.length_drop]

/-- The parts of a stream that the store has are its parts. -/
theorem partsOf_allParts (hpos : 0 < partSize) {stored : List (Nat × List UInt8)}
    (h : ∀ i < nParts data.length partSize, HasPart data partSize i stored) :
    PartsOf partSize data stored (allParts env data partSize (nParts data.length partSize))
      ((List.range (nParts data.length partSize)).map (partBody data partSize)) := by
  refine ⟨?_, ?_, flatten_partBody data hpos, ?_, ?_⟩
  · rw [List.length_map, List.length_range, allParts, List.map_map, List.range'_eq_map_range]
    exact List.map_congr_left fun i _ => Nat.add_comm i 1
  · intro i body hbody
    rw [List.getElem?_map, Option.map_eq_some_iff] at hbody
    obtain ⟨j, hj, rfl⟩ := hbody
    obtain ⟨hlt, rfl⟩ := List.getElem?_eq_some_iff.mp hj
    rw [List.length_range] at hlt
    rw [List.getElem_range]
    exact h i hlt
  · intro body hbody
    rw [List.dropLast_eq_take, List.length_map, List.length_range, ← List.map_take,
      List.take_range] at hbody
    obtain ⟨i, hi, rfl⟩ := List.mem_map.mp hbody
    have hlt : (i + 1) * partSize < data.length := (lt_nParts_iff hpos).mp (by
      have := List.mem_range.mp hi
      omega)
    rw [Nat.succ_mul] at hlt
    rw [length_partBody]
    omega
  · intro body hbody
    obtain ⟨i, hi, rfl⟩ := List.mem_map.mp hbody
    refine ⟨fun hnil => ?_, by rw [length_partBody]; exact Nat.min_le_left _ _⟩
    exact absurd (List.mem_range.mp hi) (Nat.not_lt_of_le ((partBody_eq_nil hpos).mp hnil))

/-- A single PUT of a whole stream. -/
theorem stores_putReader {metadata : Metadata} {before : Option ObjectContent} {buf : List UInt8}
    {rest : ByteFeed} (hread : readPart reader partSize = (.ok buf, rest))
    (hshort : buf.length < partSize) :
    StoresStream env partSize reader metadata before (putReader env buf metadata before) := by
  obtain ⟨hbuf, -⟩ := Feed.fill_eq_ok (Nat.le_refl _) hread
  have hlt : reader.rest.length < partSize := by
    rw [hbuf, List.length_take] at hshort
    omega
  have hall : buf = reader.rest := by rw [hbuf, List.take_of_length_le (Nat.le_of_lt hlt)]
  subst hall
  have hnot : ¬ StreamFails env partSize reader := by
    intro hfails
    cases hfails with
    | first h =>
      rw [h] at hread
      cases (Prod.mk.inj hread).1
    | later h hfull _ =>
      rw [h] at hread
      rw [Except.ok.inj (Prod.mk.inj hread).1] at hfull
      exact absurd hfull (Nat.not_le_of_lt hlt)
    | part h hfull _ _ =>
      rw [h] at hread
      rw [Except.ok.inj (Prod.mk.inj hread).1] at hfull
      exact absurd hfull (Nat.not_le_of_lt hlt)
  refine ⟨fun body => ?_, ?_, ?_, fun hfails => absurd hfails hnot, ?_⟩
  · simp only [putReader, List.mem_singleton, PipeRequest.putObject.injEq]
    exact ⟨fun h => ⟨h, hlt, rest, h ▸ hread⟩, fun h => h.1⟩
  · intro ps hps
    simp [putReader] at hps
  · intro hok
    cases hsent : (env.putObject.send before
        (storeObject false ⟨reader.rest, metadata.pipeAttributes⟩ before)).2 with
    | error e => simp [putReader, hsent, Except.mapError] at hok
    | ok u => exact storeObject_ok (WriteRequestFault.send_ok hsent)
  · intro _ hput _ _ _
    simp [putReader, hput, WriteRequestFault.send, storeObject, Except.mapError]

/-- A multipart upload of a stream. -/
theorem stores_pipeMultipart (hpos : 0 < partSize) {metadata : Metadata}
    {before : Option ObjectContent} {buf : List UInt8} {rest : ByteFeed}
    (hread : readPart reader partSize = (.ok buf, rest)) (hfull : partSize ≤ buf.length)
    {parts : Option (List (Nat × List UInt8) × Except StorageError (List CompletedPart))}
    (hparts : ∀ stored r, parts = some (stored, r) →
      ((∃ ps, r = .ok ps) ↔ ¬ ReadFails partSize rest ∧
        ∀ i < nParts reader.rest.length partSize, env.uploadPart i = none) ∧
      ∀ ps, r = .ok ps → ps = allParts env reader.rest partSize (nParts reader.rest.length partSize) ∧
        ∀ i < nParts reader.rest.length partSize, HasPart reader.rest partSize i stored)
    {out : PipeOutcome} (h : pipeMultipart env metadata before parts = some out) :
    StoresStream env partSize reader metadata before out := by
  obtain ⟨hbuf, -⟩ := Feed.fill_eq_ok (Nat.le_refl _) hread
  have hge : ¬ reader.rest.length < partSize := by
    rw [hbuf, List.length_take] at hfull
    omega
  -- the stream fails where its parts do
  have hfails : StreamFails env partSize reader ↔ ¬ (¬ ReadFails partSize rest ∧
      ∀ i < nParts reader.rest.length partSize, env.uploadPart i = none) := by
    constructor
    · rintro (h | ⟨h, -, hlater⟩ | ⟨-, -, hi, hfault⟩) ⟨hreads, hsends⟩
      · rw [h] at hread
        cases (Prod.mk.inj hread).1
      · rw [h] at hread
        rw [(Prod.mk.inj hread).2] at hlater
        exact hreads hlater
      · exact hfault (hsends _ hi)
    · intro hnot
      by_contra hno
      refine hnot ⟨fun hlater => hno (.later hread hfull hlater), fun i hi => ?_⟩
      by_contra hfault
      exact hno (.part hread hfull hi hfault)
  unfold pipeMultipart at h
  dsimp only at h
  split at h
  · -- the upload was not created
    rename_i e hcreate
    obtain rfl := Option.some.inj h
    refine ⟨fun body => ?_, fun ps hps => ?_, fun hok => ?_, fun _ => ⟨⟨_, rfl⟩, rfl, ?_⟩, ?_⟩
    · simp [hge]
    · simp at hps
    · cases hok
    · simp
    · intro _ _ hnone
      rw [hnone] at hcreate
      cases hcreate
  · split at h
    · rename_i hid
      obtain rfl := Option.some.inj h
      refine ⟨fun body => ?_, fun ps hps => ?_, fun hok => ?_, fun _ => ⟨⟨_, rfl⟩, rfl, ?_⟩, ?_⟩
      · simp [hge]
      · simp at hps
      · cases hok
      · simp
      · intro _ _ _ hsome
        exact absurd hid hsome
    · obtain ⟨⟨stored, r⟩, hrun, rfl⟩ := Option.map_eq_some_iff.mp h
      obtain ⟨hiff, hstored⟩ := hparts stored r hrun
      cases r with
      | error e =>
        refine ⟨fun body => ?_, fun ps hps => ?_, fun hok => ?_, fun _ => ⟨⟨_, rfl⟩, rfl, ?_⟩, ?_⟩
        · simp [hge]
        · simp at hps
        · cases hok
        · simp
        · intro hnot
          rw [hfails, not_not] at hnot
          obtain ⟨ps, hps⟩ := hiff.mpr hnot
          cases hps
      | ok ps =>
        obtain ⟨rfl, hhas⟩ := hstored ps rfl
        have hassemble : assembleParts env stored
            (allParts env reader.rest partSize (nParts reader.rest.length partSize)) = .ok reader.rest := by
          rw [assembleParts_allParts hhas, flatten_partBody _ hpos]
        have hsettled := hiff.mp ⟨_, rfl⟩
        refine ⟨fun body => ?_, fun ps hps => ?_, fun hok => ?_, fun hbad => ?_, ?_⟩
        · simp [hge]
        · obtain rfl : ps = _ := by simpa using hps
          exact ⟨_, partsOf_allParts hpos hhas⟩
        · simp only [settleMultipart, hassemble, Except.bind, storeObject, Bool.false_and,
            Bool.false_eq_true, if_false, Except.map] at hok ⊢
          cases hsent : (env.completeMultipartUpload.send (before, some stored)
              (.ok (some ⟨reader.rest, metadata.pipeAttributes⟩, none))).2 with
          | error e =>
            rw [hsent] at hok
            cases hok
          | ok u => rw [← Except.ok.inj (WriteRequestFault.send_ok hsent)]
        · exact absurd hsettled (hfails.mp hbad)
        · intro _ _ _ _ hcomplete
          simp [settleMultipart, hassemble, Except.bind, storeObject, Except.map, hcomplete,
            WriteRequestFault.send, Except.mapError]

end Uploads

theorem exists_pipeMultipart (env : UploadEnv) (metadata : Metadata) (before : Option ObjectContent)
    (parts : List (Nat × List UInt8) × Except StorageError (List CompletedPart)) :
    ∃ out, pipeMultipart env metadata before (some parts) = some out := by
  unfold pipeMultipart
  dsimp only
  split
  · exact ⟨_, rfl⟩
  · split
    · exact ⟨_, rfl⟩
    · exact ⟨_, rfl⟩

/-- What `pipe` promises for a stream: it returns, and however it is scheduled it
stores the stream, with at most `concurrency` parts on their way at once. -/
structure PipesStream (cfg : PipeConfig) (env : UploadEnv) (drained : Option StorageError)
    (reader : ByteFeed) (metadata : Metadata) (before : Option ObjectContent) : Prop where
  returns : ∃ sched out, putMultipartReader cfg env drained sched reader metadata before = some out
  stores : ∀ sched out, putMultipartReader cfg env drained sched reader metadata before = some out →
    if cfg.dryRun then out.requests = [] ∧ out.object = before
    else StoresStream env (max cfg.partSize 1) reader metadata before out
  bounded : ∀ buf rest, readPart reader (max cfg.partSize 1) = (.ok buf, rest) →
    max cfg.partSize 1 ≤ buf.length → ∀ sched s,
      Machine.run (pipeStep env (max cfg.partSize 1) (max cfg.concurrency 1))
        { reader := rest, producer := .holding buf } sched = some s →
      s.pool.inFlight.length ≤ max cfg.concurrency 1

/-- **`pipe` preserves the stream**, however its input comes in and in whatever order
its parts end. -/
theorem put_multipart_reader_stores (cfg : PipeConfig) (env : UploadEnv)
    (drained : Option StorageError) (reader : ByteFeed) (metadata : Metadata)
    (before : Option ObjectContent)
    (hparts : nParts reader.rest.length (max cfg.partSize 1) < 2 ^ 31 - 1) :
    PipesStream cfg env drained reader metadata before := by
  have hpos : 0 < max cfg.partSize 1 := Nat.lt_of_lt_of_le Nat.one_pos (Nat.le_max_right _ _)
  have hconc : 0 < max cfg.concurrency 1 := Nat.lt_of_lt_of_le Nat.one_pos (Nat.le_max_right _ _)
  rcases hread : readPart reader (max cfg.partSize 1) with ⟨e | buf, rest⟩
  · have hrun : ∀ sched, putMultipartReader cfg env drained sched reader metadata before =
        some { object := before, result := .error (.storage e) } := by
      intro sched
      simp only [putMultipartReader, hread]
    have hnone : ∀ buf rest', readPart reader (max cfg.partSize 1) ≠ (.ok buf, rest') := by
      intro buf rest' h
      rw [h] at hread
      cases (Prod.mk.inj hread).1
    refine ⟨⟨[], _, hrun []⟩, fun sched out h => ?_, fun buf rest' h => absurd h (hnone buf rest')⟩
    obtain rfl := Option.some.inj ((hrun sched).symm.trans h)
    split
    · exact ⟨rfl, rfl⟩
    · refine ⟨fun body => ?_, fun ps hps => ?_, fun hok => ?_, fun _ => ⟨⟨_, rfl⟩, rfl, ?_⟩, ?_⟩
      · refine iff_of_false (by simp) ?_
        rintro ⟨-, -, rest', h⟩
        exact hnone _ _ h
      · simp at hps
      · cases hok
      · simp
      · intro hnot
        exact absurd (.first hread) hnot
  · refine ⟨?_, fun sched out h => ?_, fun buf' rest' h hfull sched s hrun => ?_⟩
    · by_cases hshort : buf.length < max cfg.partSize 1
      · refine ⟨[], ?_⟩
        simp only [putMultipartReader, hread, if_pos hshort]
        split
        · exact ⟨_, rfl⟩
        · exact ⟨_, rfl⟩
      · by_cases hdry : cfg.dryRun = true
        · exact ⟨[], _, by simp only [putMultipartReader, hread, if_neg hshort, if_pos hdry]; rfl⟩
        · have hstart : PipeInv env reader.rest (max cfg.partSize 1) (max cfg.concurrency 1) rest
              { reader := rest, producer := .holding buf } :=
            pipeInv_start hpos hread (Nat.le_of_not_lt hshort)
          obtain ⟨sched, parts, hparts'⟩ := exists_uploadPartsFromFeed hpos hconc hparts hstart
          obtain ⟨out, hout⟩ := exists_pipeMultipart env metadata before parts
          refine ⟨sched, out, ?_⟩
          simp only [putMultipartReader, hread, if_neg hshort, if_neg hdry, hparts', hout]
    · by_cases hshort : buf.length < max cfg.partSize 1
      · simp only [putMultipartReader, hread, if_pos hshort] at h
        split at h
        · rename_i hdry
          obtain rfl := Option.some.inj h
          rw [if_pos hdry]
          exact ⟨rfl, rfl⟩
        · rename_i hdry
          obtain rfl := Option.some.inj h
          rw [if_neg hdry]
          exact stores_putReader hread hshort
      · simp only [putMultipartReader, hread, if_neg hshort] at h
        split at h
        · rename_i hdry
          obtain rfl := Option.some.inj h
          rw [if_pos hdry]
          exact ⟨rfl, rfl⟩
        · rename_i hdry
          rw [if_neg hdry]
          have hfull := Nat.le_of_not_lt hshort
          exact stores_pipeMultipart hpos hread hfull
            (fun stored r hrun => uploadPartsFromFeed_spec hpos hparts
              (pipeInv_start hpos hread hfull) hrun) h
    · obtain ⟨hbuf, rfl⟩ := Prod.mk.inj (hread.symm.trans h)
      obtain rfl := Except.ok.inj hbuf
      exact (Machine.run_invariant (pipeStep_inv hpos hparts) hrun
        (pipeInv_start hpos hread hfull)).permits

/-- Five bytes in parts of two, which come in one at a time at first. -/
theorem put_multipart_reader_five :
    PipesStream { partSize := 2, concurrency := 2 } {} none
      { rest := [1, 2, 3, 4, 5], reads := [.ok 0, .ok 0, .ok 1] } {} none :=
  put_multipart_reader_stores _ _ _ _ _ _ (by decide)

end Rs5cmd
