import Rs5cmd.Storage.S3.Download

/-!
# What a download leaves

The sizes of the destination file and the results of the parts, for a server
that serves byte ranges of one unchanging object.
-/

namespace Rs5cmd

/-! ## A conforming server -/

/-- The `Content-Range` text of a response. -/
def contentRangeText (first last size : Nat) : Str :=
  "bytes ".toList ++ Str.decimal first ++ '-' :: Str.decimal last ++ '/' :: Str.decimal size

/-- A body that delivers `data`, or breaks off before its end. -/
def Body.Delivers (b : Body) (data : List UInt8) : Prop :=
  b.chunks.flatten <+: data ∧ (b.fails = none → b.chunks.flatten = data)

/-- The requests that are answered are answered from the object `obj`: a range
that starts inside it with the bytes it covers and the object's size, a request
without range with the whole object. Any request may fail. -/
structure ServesRanges (obj : List UInt8) (get : Option (Nat × Nat) → Except GetError GetResponse) :
    Prop where
  size_lt : obj.length < 2 ^ 63
  range : ∀ a b resp, get (some (a, b)) = .ok resp → a < obj.length ∧
    resp.contentRange = some (contentRangeText a (min b (obj.length - 1)) obj.length) ∧
    resp.body.Delivers ((obj.drop a).take (b + 1 - a))
  whole : ∀ resp, get none = .ok resp → resp.body.Delivers obj

theorem Body.collect_eq_ok {b : Body} {data : List UInt8} :
    b.collect = .ok data ↔ b.fails = none ∧ b.chunks.flatten = data := by
  cases hb : b.fails <;> simp [Body.collect, hb]

theorem afterLast_contentRangeText (first last size : Nat) :
    Str.afterLast '/' (contentRangeText first last size) = Str.decimal size := by
  have hslash : '/' ∉ Str.decimal size := by
    intro hmem
    exact absurd (Str.isDigit_of_mem_decimal hmem) (by decide)
  unfold contentRangeText
  exact Str.afterLast_append _ hslash

theorem parseContentRangeTotal_text {first last size : Nat} (h : size < 2 ^ 64) :
    parseContentRangeTotal (some (contentRangeText first last size)) = some size := by
  rw [parseContentRangeTotal, Option.bind_some, afterLast_contentRangeText, Str.trim_decimal,
    Str.parseUnsigned_decimal h]

section Served

variable {obj : List UInt8} {get : Option (Nat × Nat) → Except GetError GetResponse}

/-- The first response reports the object's size. -/
theorem ServesRanges.total_eq (hs : ServesRanges obj get) {a b : Nat} {resp : GetResponse}
    (h : get (some (a, b)) = .ok resp) : resp.total = obj.length := by
  obtain ⟨-, hcr, -⟩ := hs.range a b resp h
  have hlt : obj.length < 2 ^ 64 := Nat.lt_trans hs.size_lt (by decide)
  rw [GetResponse.total, hcr, parseContentRangeTotal_text hlt]

/-- A collected range ends inside the object. -/
theorem ServesRanges.add_length_le (hs : ServesRanges obj get) {a b : Nat} {resp : GetResponse}
    (h : get (some (a, b)) = .ok resp) : a + resp.body.chunks.flatten.length ≤ obj.length := by
  obtain ⟨ha, -, hpre, -⟩ := hs.range a b resp h
  have hlen := hpre.length_le
  rw [List.length_take, List.length_drop] at hlen
  omega

end Served

/-- A server that holds `obj` and answers every request. -/
def serveObject (obj : List UInt8) : Option (Nat × Nat) → Except GetError GetResponse
  | none =>
    .ok { contentRange := none, contentLength := some obj.length, body := { chunks := [obj] } }
  | some (a, b) =>
    if a < obj.length then
      .ok {
        contentRange := some (contentRangeText a (min b (obj.length - 1)) obj.length)
        contentLength := some (min (b + 1) obj.length - a)
        body := { chunks := [(obj.drop a).take (b + 1 - a)] } }
    else
      .error { debug := "InvalidRange".toList, err := .msg "InvalidRange".toList }

theorem servesRanges_serveObject {obj : List UInt8} (h : obj.length < 2 ^ 63) :
    ServesRanges obj (serveObject obj) where
  size_lt := h
  range := by
    intro a b resp hget
    rw [serveObject] at hget
    split at hget
    · rename_i ha
      obtain rfl := Except.ok.inj hget
      exact ⟨ha, rfl, by simp [Body.Delivers]⟩
    · cases hget
  whole := by
    intro resp hget
    obtain rfl := Except.ok.inj hget
    simp [Body.Delivers]

/-! ## The chunks of a single GET -/

/-- How many bytes of the chunks, from chunk `k` on, reach the file. -/
def reached (env : DownloadEnv) : Nat → List (List UInt8) → Nat
  | _, [] => 0
  | k, c :: cs =>
    match env.write k with
    | some (n, _) => min n c.length
    | none => c.length + reached env (k + 1) cs

/-- Every chunk from `k` on is written, the body ends well and the flush succeeds. -/
def StreamsWell (env : DownloadEnv) (fails : Option StorageError) (k : Nat)
    (cs : List (List UInt8)) : Prop :=
  (∀ j < cs.length, env.write (k + j) = none) ∧ fails = none ∧ env.flush = none

theorem reached_le (env : DownloadEnv) (k : Nat) (cs : List (List UInt8)) :
    reached env k cs ≤ cs.flatten.length := by
  induction cs generalizing k with
  | nil => simp [reached]
  | cons c cs ih =>
    have := ih (k + 1)
    rw [reached, List.flatten_cons, List.length_append]
    split <;> omega

theorem length_append_written (f : LocalFile) (now : Int) (fault : WriteFault) (c : List UInt8) :
    (f.writeAt now f.bytes.length (fault.written c)).bytes.length =
      f.bytes.length + (fault.written c).length := by
  rw [LocalFile.writeAt_bytes]
  by_cases hd : fault.written c = []
  · simp [hd]
  · rw [Bytes.length_writeAt hd]
    omega

/-- The loop over the chunks leaves the bytes that reached the file, and fails
unless everything went well. -/
theorem streamChunks_spec (env : DownloadEnv) (fails : Option StorageError) (k : Nat)
    (cs : List (List UInt8)) (f : LocalFile) :
    (∃ f', (streamChunks env fails k cs f).file = some f' ∧
      f'.bytes.length = f.bytes.length + reached env k cs) ∧
    ((streamChunks env fails k cs f).failed ↔ ¬ StreamsWell env fails k cs) := by
  induction cs generalizing k f with
  | nil =>
    cases hf : fails with
    | some e => simp [streamChunks, StreamsWell, reached, DownloadOutcome.failed]
    | none =>
      cases hfl : env.flush <;>
        simp [streamChunks, StreamsWell, reached, DownloadOutcome.failed, stepResult, hfl]
  | cons c cs ih =>
    cases hw : env.write k with
    | some fault =>
      obtain ⟨n, e⟩ := fault
      have hfile : streamChunks env fails k (c :: cs) f =
          ⟨some (f.writeAt (env.clock (k + 1)) f.bytes.length ((env.write k).written c)),
            .error e⟩ := by
        rw [streamChunks, hw]
        rfl
      have hbad : ¬ StreamsWell env fails k (c :: cs) := by
        rintro ⟨hall, -⟩
        have h0 := hall 0 (by simp)
        rw [Nat.add_zero, hw] at h0
        cases h0
      rw [hfile]
      refine ⟨⟨_, rfl, ?_⟩, ⟨fun _ => hbad, fun _ => ⟨e, rfl⟩⟩⟩
      rw [length_append_written, reached, hw]
      simp [WriteFault.written]
    | none =>
      have hstep : streamChunks env fails k (c :: cs) f = streamChunks env fails (k + 1) cs
          (f.writeAt (env.clock (k + 1)) f.bytes.length ((env.write k).written c)) := by
        rw [streamChunks, hw]
        rfl
      have hwell : StreamsWell env fails k (c :: cs) ↔ StreamsWell env fails (k + 1) cs := by
        constructor
        · rintro ⟨hall, hrest⟩
          refine ⟨fun j hj => ?_, hrest⟩
          have := hall (j + 1) (by simpa using hj)
          rwa [show k + (j + 1) = k + 1 + j by omega] at this
        · rintro ⟨hall, hrest⟩
          refine ⟨fun j hj => ?_, hrest⟩
          cases j with
          | zero => exact hw
          | succ j =>
            rw [show k + (j + 1) = k + 1 + j by omega]
            exact hall j (by simpa using hj)
      obtain ⟨⟨f', hf', hlen⟩, hfail⟩ := ih (k + 1)
        (f.writeAt (env.clock (k + 1)) f.bytes.length ((env.write k).written c))
      rw [hstep, hwell]
      refine ⟨⟨f', hf', ?_⟩, hfail⟩
      rw [hlen, length_append_written, reached, hw]
      simp [WriteFault.written]
      omega

/-! ## The remaining parts -/

/-- The requests, the write and the join of part `i` all succeed. -/
def PartSucceeds (env : DownloadEnv) (total partSize i : Nat) : Prop :=
  (∃ resp, env.get (some ((partRange total partSize i).1,
    (partRange total partSize i).1 + (partRange total partSize i).2 - 1)) = .ok resp ∧
      resp.body.fails = none) ∧ env.write i = none ∧ env.join i = none

/-- The result part `i` ends with. -/
def partResult (env : DownloadEnv) (total partSize i : Nat) : Except StorageError Unit :=
  match fetchPart env total partSize i with
  | .error e => .error e
  | .ok _ => writeResult env i

theorem partResult_eq_ok {env : DownloadEnv} {total partSize i : Nat} :
    partResult env total partSize i = .ok () ↔ PartSucceeds env total partSize i := by
  unfold partResult PartSucceeds fetchPart
  cases hget : env.get (some ((partRange total partSize i).1,
      (partRange total partSize i).1 + (partRange total partSize i).2 - 1)) with
  | error e => simp [hget]
  | ok resp =>
    cases hf : resp.body.fails with
    | some e => simp [hget, Body.collect, hf]
    | none =>
      cases hj : env.join i <;> cases hw : env.write i <;>
        simp [hget, Body.collect, hf, writeResult, WriteFault.result, hj, hw]

theorem firstError_eq_ok {rs : List (Nat × Except StorageError Unit)} :
    firstError rs = .ok () ↔ ∀ t ∈ rs, t.2 = .ok () := by
  induction rs with
  | nil => simp [firstError]
  | cons t rs ih =>
    obtain ⟨i, r⟩ := t
    cases r with
    | error e => simp [firstError]
    | ok a => simp [firstError, ih]

section Parts

variable {opts : DownloadOpts} {env : DownloadEnv} {total : Nat}

/-- What a part has to write ends inside the file. -/
def PhaseFits (total : Nat) : PartPhase → Prop
  | .fetching => True
  | .writing off data _ => off + data.length ≤ total

/-- The result of part `i` is decided when its response arrives. -/
def ResultKnown (env : DownloadEnv) (total partSize i : Nat) : PartPhase → Prop
  | .fetching => True
  | .writing _ _ result => result = partResult env total partSize i

theorem length_written_le (fault : WriteFault) (data : List UInt8) :
    (fault.written data).length ≤ data.length := by
  unfold WriteFault.written
  split
  · exact Nat.le_refl _
  · rw [List.length_take]
    exact Nat.min_le_right _ _

/-- A step of a part keeps the file's size. -/
theorem partWork_phase {obj : List UInt8} (hs : ServesRanges obj env.get) {partSize i : Nat}
    {ph ph' : PartPhase} {e : Nat × Int} {f f' : LocalFile} (hf : f.bytes.length = obj.length)
    (hph : PhaseFits obj.length ph)
    (h : partWork env obj.length partSize i ph e f = some (f', .inl ph')) :
    f'.bytes.length = obj.length ∧ PhaseFits obj.length ph' := by
  cases ph with
  | fetching =>
    rw [partWork] at h
    cases hfetch : fetchPart env obj.length partSize i with
    | error e => simp [hfetch] at h
    | ok data =>
      simp only [hfetch, Option.some.injEq, Prod.mk.injEq, Sum.inl.injEq] at h
      obtain ⟨rfl, rfl⟩ := h
      refine ⟨hf, ?_⟩
      -- the data came from the object, so it ends inside it
      rw [fetchPart] at hfetch
      cases hget : env.get (some ((partRange obj.length partSize i).1,
          (partRange obj.length partSize i).1 + (partRange obj.length partSize i).2 - 1)) with
      | error e => simp [hget] at hfetch
      | ok resp =>
        simp only [hget] at hfetch
        obtain ⟨-, hdata⟩ := Body.collect_eq_ok.mp hfetch
        have hle := hs.add_length_le hget
        rw [hdata] at hle
        have hwle := length_written_le (env.write i) data
        show _ + ((env.write i).written data).length ≤ obj.length
        omega
  | writing off data result =>
    have hle : off + data.length ≤ obj.length := hph
    rw [partWork] at h
    split at h
    · simp at h
    · split at h
      · rename_i hn
        simp only [Option.some.injEq, Prod.mk.injEq, Sum.inl.injEq] at h
        obtain ⟨rfl, rfl⟩ := h
        refine ⟨?_, ?_⟩
        · rw [LocalFile.writeAt_bytes, Bytes.length_writeAt_of_le, hf]
          rw [List.length_take]
          omega
        · show off + e.1 + (data.drop e.1).length ≤ obj.length
          rw [List.length_drop]
          omega
      · cases h

/-- A step of a part that goes on keeps its result. -/
theorem partWork_result {partSize i : Nat} {ph ph' : PartPhase} {e : Nat × Int} {f f' : LocalFile}
    (hph : ResultKnown env total partSize i ph)
    (h : partWork env total partSize i ph e f = some (f', .inl ph')) :
    ResultKnown env total partSize i ph' := by
  cases ph with
  | fetching =>
    rw [partWork] at h
    cases hfetch : fetchPart env total partSize i with
    | error e => simp [hfetch] at h
    | ok data =>
      simp only [hfetch, Option.some.injEq, Prod.mk.injEq, Sum.inl.injEq] at h
      obtain ⟨-, rfl⟩ := h
      simp [ResultKnown, partResult, hfetch]
  | writing off data result =>
    rw [partWork] at h
    split at h
    · simp at h
    · split at h
      · simp only [Option.some.injEq, Prod.mk.injEq, Sum.inl.injEq] at h
        obtain ⟨-, rfl⟩ := h
        exact hph
      · cases h

/-- A part ends with its result, and its last step leaves the file alone. -/
theorem partWork_done {partSize i : Nat} {ph : PartPhase} {e : Nat × Int} {f f' : LocalFile}
    {r : Except StorageError Unit} (hph : ResultKnown env total partSize i ph)
    (h : partWork env total partSize i ph e f = some (f', .inr r)) :
    f' = f ∧ r = partResult env total partSize i := by
  cases ph with
  | fetching =>
    rw [partWork] at h
    cases hfetch : fetchPart env total partSize i with
    | error e =>
      simp only [hfetch, Option.some.injEq, Prod.mk.injEq, Sum.inr.injEq] at h
      obtain ⟨rfl, rfl⟩ := h
      exact ⟨rfl, by simp [partResult, hfetch]⟩
    | ok data => simp [hfetch] at h
  | writing off data result =>
    rw [partWork] at h
    split at h
    · simp only [Option.some.injEq, Prod.mk.injEq, Sum.inr.injEq] at h
      obtain ⟨rfl, rfl⟩ := h
      exact ⟨rfl, hph⟩
    · split at h <;> simp at h

/-- **The remaining parts fail exactly when a part fails**, under every schedule. -/
theorem downloadRemainingParts_result {sched : List (Pool.Event (Nat × Int))} {f : LocalFile}
    {out : LocalFile × Except StorageError Unit}
    (h : downloadRemainingParts opts env sched total f = some out) :
    out.2 = .ok () ↔ ∀ i, 1 ≤ i → i < nParts total opts.partSize →
      PartSucceeds env total opts.partSize i := by
  obtain ⟨p, hrun, h⟩ := Option.bind_eq_some_iff.mp h
  split at h
  · rename_i hc
    obtain rfl := Option.some.inj h
    have hinv := Pool.run_inv (T := partTasks opts env total) (I := fun _ => True)
      (Q := fun j => ResultKnown env total opts.partSize (j + 1))
      (R := fun j r => r = partResult env total opts.partSize (j + 1))
      (fun _ _ => trivial)
      (fun j ph e g g' ph' _ hph hw => ⟨trivial, partWork_result hph hw⟩)
      (fun j ph e g g' r _ hph hw => ⟨trivial, (partWork_done hph hw).2⟩)
      trivial hrun
    rw [firstError_eq_ok]
    constructor
    · intro hall i hi1 hin
      obtain ⟨j, rfl⟩ : ∃ j, i = j + 1 := ⟨i - 1, by omega⟩
      have hj : j < (partTasks opts env total).count := by
        show j < nParts total opts.partSize - 1
        omega
      obtain ⟨r, hr⟩ := hinv.exists_result hc hj
      have hok := hall _ hr
      rw [(hinv.results _ hr).2] at hok
      exact partResult_eq_ok.mp hok
    · intro hall t ht
      obtain ⟨hlt, hr⟩ := hinv.results t ht
      rw [hr]
      refine partResult_eq_ok.mpr (hall (t.1 + 1) (by omega) ?_)
      have hlt' : t.1 < nParts total opts.partSize - 1 := hlt
      omega
  · cases h

/-- **The remaining parts keep the file's size**, under every schedule. -/
theorem downloadRemainingParts_length {obj : List UInt8} (hs : ServesRanges obj env.get)
    {sched : List (Pool.Event (Nat × Int))} {f : LocalFile} (hf : f.bytes.length = obj.length)
    {out : LocalFile × Except StorageError Unit}
    (h : downloadRemainingParts opts env sched obj.length f = some out) :
    out.1.bytes.length = obj.length := by
  obtain ⟨p, hrun, h⟩ := Option.bind_eq_some_iff.mp h
  split at h
  · obtain rfl := Option.some.inj h
    have hinv := Pool.run_inv (T := partTasks opts env obj.length)
      (I := fun g => g.bytes.length = obj.length)
      (Q := fun j ph => PhaseFits obj.length ph ∧ ResultKnown env obj.length opts.partSize (j + 1) ph)
      (R := fun _ _ => True)
      (fun _ _ => ⟨trivial, trivial⟩)
      (fun j ph e g g' ph' hg hph hw => by
        obtain ⟨hlen, hfits⟩ := partWork_phase hs hg hph.1 hw
        exact ⟨hlen, hfits, partWork_result hph.2 hw⟩)
      (fun j ph e g g' r hg hph hw => by
        obtain ⟨rfl, -⟩ := partWork_done hph.2 hw
        exact ⟨hg, trivial⟩)
      hf hrun
    exact hinv.shared
  · cases h

/-- An upper bound on the steps a part still needs when it writes all its data at
once. -/
def PartPhase.steps : PartPhase → Nat
  | .fetching => 2
  | .writing _ data _ => if data.isEmpty then 0 else 1

/-- **The remaining parts come to an end** under some schedule. -/
theorem exists_downloadRemainingParts (opts : DownloadOpts) (env : DownloadEnv) (total : Nat)
    (f : LocalFile) : ∃ sched out, downloadRemainingParts opts env sched total f = some out := by
  have hwork : ∀ i ph g, ∃ e g' res, (partTasks opts env total).work i ph e g = some (g', res) ∧
      ∀ ph', res = .inl ph' → PartPhase.steps ph' < PartPhase.steps ph := by
    intro i ph g
    cases ph with
    | fetching =>
      cases hfetch : fetchPart env total opts.partSize (i + 1) with
      | error e => exact ⟨(0, 0), g, .inr (.error e), by simp [partTasks, partWork, hfetch], by simp⟩
      | ok data =>
        refine ⟨(0, 0), g, .inl _, by simp [partTasks, partWork, hfetch]; rfl, ?_⟩
        intro ph' hph'
        obtain rfl := Sum.inl.inj hph'
        simp only [PartPhase.steps]
        split <;> omega
    | writing off data result =>
      cases data with
      | nil => exact ⟨(0, 0), g, .inr result, by simp [partTasks, partWork], by simp⟩
      | cons b data =>
        -- all that is left is written at once
        refine ⟨((b :: data).length, 0), g.writeAt 0 off ((b :: data).take (b :: data).length),
          .inl (.writing (off + (b :: data).length) ((b :: data).drop (b :: data).length) result),
          by simp [partTasks, partWork], ?_⟩
        intro ph' hph'
        obtain rfl := Sum.inl.inj hph'
        simp [PartPhase.steps]
  obtain ⟨sched, p, hrun, hc⟩ := Pool.exists_complete (T := partTasks opts env total)
    opts.concurrency_pos PartPhase.steps hwork f
  refine ⟨sched, (p.shared, firstError p.results), ?_⟩
  rw [downloadRemainingParts, hrun, Option.bind_some, if_pos hc]

end Parts

/-! ## The paths of a download -/

section Paths

variable {opts : DownloadOpts} {env : DownloadEnv} {sched : List (Pool.Event (Nat × Int))}
  {before : Option LocalFile} {out : DownloadOutcome}

theorem restoreMtime_bytes (opts : DownloadOpts) (env : DownloadEnv) (resp : GetResponse)
    (f : LocalFile) : (restoreMtime opts env resp f).bytes = f.bytes := by
  unfold restoreMtime
  split
  · split <;> rfl
  · rfl

/-- A download leaves the destination alone (in a dry run, or when it fails before
it opens the file), or streams a single GET into it, or sizes it and writes its
parts. -/
theorem download_cases (h : download opts env sched before = some out) :
    (out.file = before ∧ (opts.dryRun = true ∨ out.failed)) ∨
    (opts.dryRun = false ∧ env.createDirAll = none ∧
      ∃ e resp, env.get (some (0, opts.partSize - 1)) = .error e ∧ isRangeNotSatisfiable e = true ∧
        env.get none = .ok resp ∧ env.openFile = none ∧
        out = streamChunks env resp.body.fails 0 resp.body.chunks (.truncated (env.clock 0))) ∨
    (opts.dryRun = false ∧ env.createDirAll = none ∧
      ∃ resp first, env.get (some (0, opts.partSize - 1)) = .ok resp ∧
        resp.body.collect = .ok first ∧ env.openFile = none ∧
        downloadParts opts env sched resp first = some out) := by
  unfold download at h
  split at h
  · rename_i hdry
    obtain rfl := Option.some.inj h
    exact .inl ⟨rfl, .inl hdry⟩
  · rename_i hdry
    have hdry' : opts.dryRun = false := by simpa using hdry
    split at h
    · obtain rfl := Option.some.inj h
      exact .inl ⟨rfl, .inr ⟨_, rfl⟩⟩
    · rename_i hdir
      split at h
      · rename_i e hget
        split at h
        · rename_i hrange
          have hout := Option.some.inj h
          unfold downloadSingle at hout
          split at hout
          · subst hout
            exact .inl ⟨rfl, .inr ⟨_, rfl⟩⟩
          · rename_i resp hwhole
            split at hout
            · subst hout
              exact .inl ⟨rfl, .inr ⟨_, rfl⟩⟩
            · rename_i hopen
              exact .inr (.inl ⟨hdry', hdir, e, resp, hget, hrange, hwhole, hopen, hout.symm⟩)
        · obtain rfl := Option.some.inj h
          exact .inl ⟨rfl, .inr ⟨_, rfl⟩⟩
      · rename_i resp hget
        split at h
        · obtain rfl := Option.some.inj h
          exact .inl ⟨rfl, .inr ⟨_, rfl⟩⟩
        · rename_i first hfirst
          split at h
          · obtain rfl := Option.some.inj h
            exact .inl ⟨rfl, .inr ⟨_, rfl⟩⟩
          · rename_i hopen
            exact .inr (.inr ⟨hdry', hdir, resp, first, hget, hfirst, hopen, h⟩)

theorem download_of_stream {e : GetError} {resp : GetResponse} (hdry : opts.dryRun = false)
    (hdir : env.createDirAll = none) (hget : env.get (some (0, opts.partSize - 1)) = .error e)
    (hrange : isRangeNotSatisfiable e = true) (hwhole : env.get none = .ok resp)
    (hopen : env.openFile = none) :
    download opts env sched before =
      some (streamChunks env resp.body.fails 0 resp.body.chunks (.truncated (env.clock 0))) := by
  simp [download, hdry, hdir, hget, hrange, downloadSingle, hwhole, hopen]

theorem download_of_parts {resp : GetResponse} {first : List UInt8} (hdry : opts.dryRun = false)
    (hdir : env.createDirAll = none) (hget : env.get (some (0, opts.partSize - 1)) = .ok resp)
    (hfirst : resp.body.collect = .ok first) (hopen : env.openFile = none) :
    download opts env sched before = downloadParts opts env sched resp first := by
  simp [download, hdry, hdir, hget, hfirst, hopen]

end Paths

end Rs5cmd
