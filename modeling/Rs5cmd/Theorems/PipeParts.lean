import Rs5cmd.Theorems.PipeStream

/-!
# Two models of the parts of `pipe`

`uploadPartsFromReader` is given the bytes of the input and the reads that fail, while
`uploadPartsFromFeed` takes both from the input, one read after the other, as the loop of
the code does. Whatever the second returns, the first returns under a schedule of the same
tasks: what is known of the one holds of the other.
-/

namespace Rs5cmd

/-! ## The reads that fail -/

/-- The error of the read that comes after `k` others. -/
def readFaultAfter (partSize : Nat) : ByteFeed → Nat → Option StorageError
  | reader, 0 =>
    match readPart reader partSize with
    | (.error e, _) => some e
    | _ => none
  | reader, k + 1 =>
    match readPart reader partSize with
    | (.ok (_ :: _), reader') => readFaultAfter partSize reader' k
    | _ => none

/-- The environment of an upload whose parts after the first are read from the feed. -/
def streamEnv (env : UploadEnv) (partSize : Nat) (first : ByteFeed) : PipeEnv where
  multipart := env
  readPart k := readFaultAfter partSize first (k - 1)

/-- That many parts are read from a feed, and leave another. -/
inductive ReadsTo (partSize : Nat) (first : ByteFeed) : Nat → ByteFeed → Prop
  | start : ReadsTo partSize first 0 first
  | part {k reader reader' b bs} (h : ReadsTo partSize first k reader)
      (hread : readPart reader partSize = (.ok (b :: bs), reader')) :
      ReadsTo partSize first (k + 1) reader'

section Reads

variable {env : UploadEnv} {partSize k n : Nat} {first reader reader' : ByteFeed} {e : StorageError}

theorem ReadsTo.readFaultAfter_add (h : ReadsTo partSize first k reader) (j : Nat) :
    readFaultAfter partSize first (k + j) = readFaultAfter partSize reader j := by
  induction h generalizing j with
  | start => rw [Nat.zero_add]
  | part _ hread ih =>
    rw [Nat.add_assoc, ih, Nat.add_comm, readFaultAfter, hread]

theorem ReadsTo.readFaultAfter_lt (h : ReadsTo partSize first k reader) {i : Nat} (hi : i < k) :
    readFaultAfter partSize first i = none := by
  induction h with
  | start => exact absurd hi (Nat.not_lt_zero i)
  | part hreads hread ih =>
    rcases Nat.lt_succ_iff_lt_or_eq.mp hi with hlt | rfl
    · exact ih hlt
    · have hlast := hreads.readFaultAfter_add 0
      rw [Nat.add_zero] at hlast
      rw [hlast, readFaultAfter, hread]

/-- The read that fails is the one after the parts that were read. -/
theorem ReadsTo.readFault_of_error (h : ReadsTo partSize first k reader) (hk : k < n)
    (hread : readPart reader partSize = (.error e, reader')) :
    (streamEnv env partSize first).readFault n = some (k + 1, e) := by
  refine PipeEnv.readFault_eq_some hk ?_ ?_
  · intro i hi
    exact h.readFaultAfter_lt hi
  · have hhere := h.readFaultAfter_add 0
    rw [readFaultAfter, hread] at hhere
    exact hhere

/-- After the end of the input no read fails. -/
theorem ReadsTo.readFault_of_end (h : ReadsTo partSize first k reader)
    (hread : readPart reader partSize = (.ok [], reader')) :
    (streamEnv env partSize first).readFault n = none := by
  refine PipeEnv.readFault_eq_none.mpr fun i _ => ?_
  show readFaultAfter partSize first i = none
  rcases Nat.lt_or_ge i k with hlt | hge
  · exact h.readFaultAfter_lt hlt
  · obtain ⟨j, rfl⟩ := Nat.exists_eq_add_of_le hge
    rw [h.readFaultAfter_add]
    cases j <;> simp only [readFaultAfter, hread]

end Reads

/-! ## The loop -/

section Loop

variable {env : UploadEnv} {data buf : List UInt8} {partSize concurrency : Nat}
  {first reader : ByteFeed}

/-- How far the loop has come in the feed, and what it returns. -/
def Producer.Follows (env : UploadEnv) (partSize n : Nat) (first reader : ByteFeed)
    (pool : Pool (List (Nat × List UInt8)) UploadPhase (Except StorageError CompletedPart)) :
    Producer → Prop
  | .holding _ => ReadsTo partSize first pool.next reader
  | .reading => ∃ k, pool.next = k + 1 ∧ ReadsTo partSize first k reader
  | .joining _ => (streamEnv env partSize first).readFault n = none
  | .returned (.ok _) => (streamEnv env partSize first).readFault n = none
  | .returned (.error e) =>
    (streamEnv env partSize first).readFault n = some (pool.next, e) ∨
      (streamEnv env partSize first).readFault n = none ∧ pool.next = n ∧
        collectResults pool.results = .error e

def PipeState.Follows (env : UploadEnv) (partSize n : Nat) (first : ByteFeed) (s : PipeState) :
    Prop :=
  s.producer.Follows env partSize n first s.reader s.pool

/-- The results that were joined before an error hide no other. -/
theorem collectResults_eq_error {α : Type} {rs : List (Nat × Except StorageError α)} {as : List α}
    {i : Nat} {e : StorageError} (hjoined : (rs.take as.length).map Prod.snd = as.map .ok)
    (herror : rs[as.length]? = some (i, .error e)) : collectResults rs = .error e := by
  induction as generalizing rs with
  | nil =>
    obtain ⟨rest, rfl⟩ := List.head?_eq_some_iff.mp (List.head?_eq_getElem? ▸ herror)
    rfl
  | cons a as ih =>
    cases rs with
    | nil => cases herror
    | cons r rs =>
      obtain ⟨j, r⟩ := r
      simp only [List.length_cons, List.take_succ_cons, List.map_cons, List.cons.injEq] at hjoined
      obtain ⟨rfl, hjoined⟩ := hjoined
      rw [collectResults, ih hjoined herror]

theorem pipeStep_follows {s s' : PipeState} {ev : PipeEvent}
    (hstep : pipeStep env partSize concurrency s ev = some s')
    (h : PipeInv env data partSize concurrency first s)
    (hf : s.Follows env partSize (nParts data.length partSize) first) :
    s'.Follows env partSize (nParts data.length partSize) first := by
  have hknows := h.producer
  unfold PipeState.Follows at hf
  obtain ⟨buf, hholding, -, rfl⟩ | ⟨rfl, hreading⟩ | ⟨i, ph, out, hgoing, hph, hwork, rfl⟩ |
    ⟨rfl, joined, hjoining⟩ := pipeStep_cases hstep
  · rw [hholding] at hf
    exact ⟨s.pool.next, rfl, hf⟩
  · rw [hreading] at hf hknows
    obtain ⟨k, hk, hreads⟩ := hf
    have hnext : s.pool.next ≤ nParts data.length partSize := hknows.1
    simp only [pipeStep, hreading] at hstep
    split at hstep
    · rename_i e reader hread
      obtain rfl := Option.some.inj hstep
      refine .inl ?_
      rw [hk]
      exact hreads.readFault_of_error (by omega) hread
    · rename_i reader hread
      obtain rfl := Option.some.inj hstep
      exact hreads.readFault_of_end hread
    · rename_i b bs reader hread
      obtain rfl := Option.some.inj hstep
      show ReadsTo partSize first s.pool.next reader
      rw [hk]
      exact hreads.part hread
  · -- the tasks do not bear on what has been read
    have hnext : (s.pool.settle i out.1 out.2).next = s.pool.next := by cases out.2 <;> rfl
    show s.producer.Follows env partSize _ first s.reader (s.pool.settle i out.1 out.2)
    cases hproducer : s.producer with
    | holding buf =>
      rw [hproducer] at hf
      show ReadsTo partSize first (s.pool.settle i out.1 out.2).next s.reader
      rwa [hnext]
    | reading =>
      rw [hproducer] at hf
      obtain ⟨k, hk, hreads⟩ := hf
      exact ⟨k, hnext.trans hk, hreads⟩
    | joining joined =>
      rw [hproducer] at hf
      exact hf
    | returned r => exact absurd hproducer (hgoing r)
  · rw [hjoining] at hf hknows
    obtain ⟨hnext, -, htake⟩ := hknows
    simp only [pipeStep, hjoining] at hstep
    split at hstep
    · rename_i i e hresult
      obtain rfl := Option.some.inj hstep
      exact .inr ⟨hf, hnext, collectResults_eq_error htake hresult⟩
    · obtain rfl := Option.some.inj hstep
      exact hf
    · split at hstep
      · obtain rfl := Option.some.inj hstep
        exact hf
      · cases hstep

/-- **The parts of the feed are the parts of its bytes**: whatever the loop returns, under
any schedule and with reads of any length, is returned for the bytes of the input, and the
reads of it that fail. -/
theorem uploadPartsFromFeed_refines {opts : UploadOpts}
    (hparts : nParts reader.rest.length opts.partSize < 2 ^ 31 - 1)
    (hread : readPart reader opts.partSize = (.ok buf, first)) (hfull : opts.partSize ≤ buf.length)
    {sched : List PipeEvent} {stored : List (Nat × List UInt8)}
    {r : Except StorageError (List CompletedPart)}
    (h : uploadPartsFromFeed env opts.partSize opts.concurrency sched buf first = some (stored, r)) :
    ∃ sched', uploadPartsFromReader opts (streamEnv env opts.partSize first) sched' reader.rest =
      some (stored, r) := by
  have hpos : 0 < opts.partSize := Nat.lt_of_lt_of_le (by decide) opts.le_partSize
  obtain ⟨s, hrun, h⟩ := Option.bind_eq_some_iff.mp h
  obtain ⟨hinv, hfollows⟩ := Machine.run_invariant
    (P := fun s => PipeInv env reader.rest opts.partSize opts.concurrency first s ∧
      s.Follows env opts.partSize (nParts reader.rest.length opts.partSize) first)
    (fun s e s' hstep hs =>
      ⟨pipeStep_inv hpos hparts s e s' hstep hs.1, pipeStep_follows hstep hs.1 hs.2⟩)
    hrun ⟨pipeInv_start hpos hread hfull, .start⟩
  obtain ⟨sched', hpool⟩ := hinv.pool
  have hknows := hinv.producer
  unfold PipeState.Follows at hfollows
  refine ⟨sched', ?_⟩
  cases hproducer : s.producer with
  | holding buf => simp [hproducer] at h
  | reading => simp [hproducer] at h
  | joining joined => simp [hproducer] at h
  | returned r' =>
    rw [hproducer] at h hknows hfollows
    obtain ⟨rfl, rfl⟩ := Prod.mk.inj (Option.some.inj h)
    cases r' with
    | error e =>
      rcases hfollows with hfault | ⟨hfault, hnext, hcollect⟩
      · have hrun' := Pool.run_of_next_le hpool (Nat.le_refl s.pool.next)
        have htasks : Machine.run (Pool.step (pipeTasks opts (streamEnv env opts.partSize first)
            reader.rest s.pool.next)) { shared := [] } sched' = some s.pool := hrun'
        rw [uploadPartsFromReader, hfault]
        simp only [htasks, Option.bind_some, if_true]
      · have htasks : Machine.run (Pool.step (pipeTasks opts (streamEnv env opts.partSize first)
            reader.rest (nParts reader.rest.length opts.partSize))) { shared := [] } sched' =
              some s.pool := hpool
        rw [uploadPartsFromReader, hfault]
        simp only [htasks, Option.bind_some, hcollect, hnext, if_true]
    | ok parts =>
      obtain ⟨hnext, -, hempty, as, has, rfl⟩ := hknows
      have htasks : Machine.run (Pool.step (pipeTasks opts (streamEnv env opts.partSize first)
          reader.rest (nParts reader.rest.length opts.partSize))) { shared := [] } sched' =
            some s.pool := hpool
      have hcomplete : Pool.Complete (pipeTasks opts (streamEnv env opts.partSize first)
          reader.rest (nParts reader.rest.length opts.partSize)) s.pool :=
        ⟨Nat.le_of_eq hnext.symm, hempty⟩
      have hfault : (streamEnv env opts.partSize first).readFault
          (nParts reader.rest.length opts.partSize) = none := hfollows
      rw [uploadPartsFromReader, hfault]
      simp only [htasks, Option.bind_some, has, hcomplete, if_true]

end Loop

/-! ## Whole uploads -/

/-- An upload that comes to an outcome without its parts comes to it with any. -/
theorem runMultipart_of_none {env : UploadEnv} {ifNoneMatch : Bool} {attrs : Attributes}
    {mapErr : GetError → UploadError} {before : Option ObjectContent} {out : MultipartOutcome}
    (h : runMultipart env ifNoneMatch attrs mapErr before none = some out)
    (parts : Option (List (Nat × List UInt8) × Except StorageError (List CompletedPart))) :
    runMultipart env ifNoneMatch attrs mapErr before parts = some out := by
  unfold runMultipart at h ⊢
  dsimp only at h ⊢
  split at h
  · exact h
  · split at h
    · exact h
    · cases h

/-- **A `pipe` is an upload of the bytes of its input**: every outcome that it has with the
input as a feed is one of `pipeMultipartUpload`. -/
theorem pipeMultipart_refines {opts : UploadOpts} {env : UploadEnv} {metadata : Metadata}
    {before : Option ObjectContent} {reader first : ByteFeed} {buf : List UInt8}
    (hparts : nParts reader.rest.length opts.partSize < 2 ^ 31 - 1)
    (hread : readPart reader opts.partSize = (.ok buf, first)) (hfull : opts.partSize ≤ buf.length)
    {sched : List PipeEvent} {out : PipeOutcome}
    (h : pipeMultipart env metadata before
      (uploadPartsFromFeed env opts.partSize opts.concurrency sched buf first) = some out) :
    ∃ sched', pipeMultipartUpload opts (streamEnv env opts.partSize first) sched' reader.rest
      metadata before = some out.toMultipartOutcome := by
  have hrun := pipeMultipart_eq env metadata before
    (uploadPartsFromFeed env opts.partSize opts.concurrency sched buf first)
  rw [h, Option.map_some] at hrun
  cases hfeed : uploadPartsFromFeed env opts.partSize opts.concurrency sched buf first with
  | none =>
    rw [hfeed] at hrun
    exact ⟨[], runMultipart_of_none hrun.symm _⟩
  | some parts =>
    obtain ⟨sched', hreader⟩ := uploadPartsFromFeed_refines hparts hread hfull hfeed
    refine ⟨sched', ?_⟩
    rw [pipeMultipartUpload, hreader, ← hfeed]
    exact hrun.symm

end Rs5cmd
