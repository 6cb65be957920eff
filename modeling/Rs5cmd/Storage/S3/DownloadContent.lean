import Rs5cmd.Storage.S3.DownloadSpec

/-!
# The bytes a download writes

The requests of a download are answered one by one, and the object may be
overwritten between them. What the file is to be is therefore put together from
the contents that answer them. Every write puts bytes of that where they belong, so
a byte of the file that is right stays right whatever the other parts do. A part
that ends well has made its whole range right, and the ranges cover the file.
-/

namespace Rs5cmd

/-! ## Right bytes -/

/-- The file has the object's bytes from `lo` up to `hi`. -/
def RightOn (obj : List UInt8) (lo hi : Nat) (f : LocalFile) : Prop :=
  ∀ p, lo ≤ p → p < hi → f.bytes[p]? = obj[p]?

/-- No right byte is spoilt. -/
def KeepsRight (obj : List UInt8) (f f' : LocalFile) : Prop :=
  ∀ p : Nat, f.bytes[p]? = obj[p]? → f'.bytes[p]? = obj[p]?

theorem RightOn.mono {obj : List UInt8} {lo hi : Nat} {f f' : LocalFile} (h : RightOn obj lo hi f)
    (hkeep : KeepsRight obj f f') : RightOn obj lo hi f' :=
  fun p hlo hhi => hkeep p (h p hlo hhi)

theorem KeepsRight.rfl {obj : List UInt8} {f : LocalFile} : KeepsRight obj f f := fun _ h => h

theorem bytes_eq_of_rightOn {obj : List UInt8} {f : LocalFile} (hlen : f.bytes.length = obj.length)
    (h : RightOn obj 0 obj.length f) : f.bytes = obj := by
  apply List.ext_getElem?
  intro p
  by_cases hp : p < obj.length
  · exact h p (Nat.zero_le p) hp
  · rw [List.getElem?_eq_none (by omega), List.getElem?_eq_none (by omega)]

section Write

variable {obj data : List UInt8} {off : Nat} {f : LocalFile}

theorem getElem?_of_prefix_drop (h : data <+: obj.drop off) {p : Nat} (hlo : off ≤ p)
    (hhi : p < off + data.length) : data[p - off]? = obj[p]? := by
  obtain ⟨rest, hrest⟩ := h
  have hdrop : (obj.drop off)[p - off]? = obj[p]? := by
    rw [List.getElem?_drop]
    congr 1
    omega
  rw [← hdrop, ← hrest, List.getElem?_append_left (by omega)]

/-- Writing the object's bytes in their place makes them right and spoils
nothing. -/
theorem writeAt_right (hlen : f.bytes.length = obj.length) (h : data <+: obj.drop off)
    (hle : off + data.length ≤ obj.length) (now : Int) :
    (f.writeAt now off data).bytes.length = obj.length ∧
      KeepsRight obj f (f.writeAt now off data) ∧
      RightOn obj off (off + data.length) (f.writeAt now off data) := by
  have hget : ∀ p, (f.writeAt now off data).bytes[p]? =
      if off ≤ p ∧ p < off + data.length then data[p - off]? else f.bytes[p]? := by
    intro p
    rw [LocalFile.writeAt_bytes]
    exact Bytes.getElem?_writeAt (by omega) p
  refine ⟨?_, ?_, ?_⟩
  · rw [LocalFile.writeAt_bytes, Bytes.length_writeAt_of_le (by omega), hlen]
  · intro p hp
    rw [hget p]
    split
    · rename_i hin
      exact getElem?_of_prefix_drop h hin.1 hin.2
    · exact hp
  · intro p hlo hhi
    rw [hget p, if_pos ⟨hlo, hhi⟩]
    exact getElem?_of_prefix_drop h hlo hhi

end Write

theorem written_isPrefix (fault : WriteFault) (data : List UInt8) : fault.written data <+: data := by
  unfold WriteFault.written
  split
  · exact List.prefix_rfl
  · exact List.take_prefix _ _

theorem WriteFault.eq_none_of_result {fault : WriteFault} (h : fault.result = .ok ()) :
    fault = none := by
  cases fault with
  | none => rfl
  | some f => cases h

/-! ## A single GET -/

/-- A stream that ends well has appended every chunk. -/
theorem streamChunks_content {env : DownloadEnv} {fails : Option StorageError} {k : Nat}
    {cs : List (List UInt8)} {f : LocalFile} (h : (streamChunks env fails k cs f).result = .ok ()) :
    fails = none ∧ ∃ f', (streamChunks env fails k cs f).file = some f' ∧
      f'.bytes = f.bytes ++ cs.flatten := by
  induction cs generalizing k f with
  | nil =>
    cases fails with
    | some e => cases h
    | none => exact ⟨rfl, f, rfl, by simp⟩
  | cons c cs ih =>
    rw [streamChunks] at h ⊢
    cases hw : (env.write k).result with
    | error e => simp [hw] at h
    | ok u =>
      simp only [hw] at h ⊢
      obtain ⟨hnone, f', hf', hbytes⟩ := ih h
      refine ⟨hnone, f', hf', ?_⟩
      have hwritten : (env.write k).written c = c := by
        rw [WriteFault.eq_none_of_result hw, WriteFault.written]
      rw [hbytes, LocalFile.writeAt_bytes, Bytes.writeAt_length, hwritten, List.flatten_cons,
        List.append_assoc]

/-! ## Versions of the object -/

/-- The answer to a request, if there is one, is from the content `obj`. -/
def AnswersFrom (obj : List UInt8) (answer : Except GetError GetResponse) :
    Option (Nat × Nat) → Prop
  | none => ∀ resp, answer = .ok resp → resp.body.Delivers obj
  | some (a, b) => ∀ resp, answer = .ok resp → a < obj.length ∧
      resp.contentRange = some (contentRangeText a (min b (obj.length - 1)) obj.length) ∧
      resp.body.Delivers ((obj.drop a).take (b + 1 - a))

/-- Overwrites of the object go on between the requests of a download: `version r`
is the content that is current when `r` is served. Any request may fail. -/
structure ServesVersions (version : Option (Nat × Nat) → List UInt8)
    (get : Option (Nat × Nat) → Except GetError GetResponse) : Prop where
  size_lt : ∀ r, (version r).length < 2 ^ 63
  answers : ∀ r, AnswersFrom (version r) (get r) r

theorem ServesRanges.versions {obj : List UInt8}
    {get : Option (Nat × Nat) → Except GetError GetResponse} (hs : ServesRanges obj get) :
    ServesVersions (fun _ => obj) get where
  size_lt _ := hs.size_lt
  answers r := by
    cases r with
    | none => exact hs.whole
    | some r => exact hs.range r.1 r.2

/-- Where part `i` of an object ends. -/
def partEnd (total partSize i : Nat) : Nat :=
  (partRange total partSize i).1 + (partRange total partSize i).2

/-- The request for part `i`; the first one is made before the size is known. -/
def partRequest (total partSize i : Nat) : Option (Nat × Nat) :=
  if i = 0 then some (0, partSize - 1)
  else some ((partRange total partSize i).1, partEnd total partSize i - 1)

/-- The contents that answer the parts of a file, put together: each byte is from
the one that answers its part, or zero where that has ended. -/
def assembled (version : Option (Nat × Nat) → List UInt8) (total partSize : Nat) : List UInt8 :=
  (List.range total).map fun p =>
    ((version (partRequest total partSize (p / partSize)))[p]?).getD 0

section Assembled

variable {version : Option (Nat × Nat) → List UInt8} {total partSize p i : Nat}

@[simp] theorem length_assembled : (assembled version total partSize).length = total := by
  simp [assembled]

theorem getElem?_assembled (h : p < total) : (assembled version total partSize)[p]? =
    some (((version (partRequest total partSize (p / partSize)))[p]?).getD 0) := by
  simp [assembled, h]

theorem assembled_const (obj : List UInt8) : assembled (fun _ => obj) obj.length partSize = obj := by
  apply List.ext_getElem?
  intro p
  by_cases hp : p < obj.length
  · rw [getElem?_assembled hp, List.getElem?_eq_getElem hp, Option.getD_some]
  · rw [List.getElem?_eq_none (by simpa using hp), List.getElem?_eq_none (by omega)]

/-- A byte of a part's range belongs to that part. -/
theorem div_eq_of_mem_part (hlo : i * partSize ≤ p) (hhi : p < partEnd total partSize i) :
    p / partSize = i := by
  simp only [partEnd, partRange] at hhi
  refine Nat.div_eq_of_lt_le hlo ?_
  rw [Nat.succ_mul]
  omega

theorem getElem?_assembled_part (hlo : i * partSize ≤ p) (hhi : p < partEnd total partSize i) :
    (assembled version total partSize)[p]? =
      some (((version (partRequest total partSize i))[p]?).getD 0) := by
  have hlt : p < total := by
    simp only [partEnd, partRange] at hhi
    omega
  rw [getElem?_assembled hlt, div_eq_of_mem_part hlo hhi]

end Assembled

/-! ## The parts -/

section Parts

variable {opts : DownloadOpts} {env : DownloadEnv} {obj : List UInt8} {partSize i : Nat}

/-- What part `i` is answered with belongs where it is written, and where it ends
early the file is to be zero. -/
structure PartData (obj : List UInt8) (partSize i : Nat) (data : List UInt8) : Prop where
  cut : data <+: obj.drop (partRange obj.length partSize i).1
  inside : data ≠ [] → (partRange obj.length partSize i).1 + data.length ≤ obj.length
  short : ∀ p, (partRange obj.length partSize i).1 + data.length ≤ p →
    p < partEnd obj.length partSize i → obj[p]? = some 0

/-- The answer to the request for part `i`, when it arrives whole, ends with its
range or with the content it is from. -/
theorem fetchPart_eq {version : Option (Nat × Nat) → List UInt8} (hs : ServesVersions version env.get)
    {total : Nat} (hpos : 0 < partSize) (hi : 0 < i) {data : List UInt8}
    (h : fetchPart env total partSize i = .ok data) :
    data = ((version (partRequest total partSize i)).drop (i * partSize)).take
      (partRange total partSize i).2 := by
  have hreq : partRequest total partSize i = some ((partRange total partSize i).1,
      (partRange total partSize i).1 + (partRange total partSize i).2 - 1) := by
    rw [partRequest, if_neg (Nat.pos_iff_ne_zero.mp hi), partEnd]
  have hoff : 0 < i * partSize := Nat.mul_pos hi hpos
  have hans := hs.answers (partRequest total partSize i)
  rw [hreq] at hans ⊢
  rw [fetchPart] at h
  cases hget : env.get (some ((partRange total partSize i).1,
      (partRange total partSize i).1 + (partRange total partSize i).2 - 1)) with
  | error e => simp [hget] at h
  | ok resp =>
    simp only [hget] at h
    obtain ⟨hfails, hdata⟩ := Body.collect_eq_ok.mp h
    obtain ⟨-, -, -, hall⟩ := hans resp hget
    rw [← hdata, hall hfails]
    congr 1
    simp only [partRange]
    omega

/-- Each part is answered from the content that the file is put together from. -/
theorem partData_of_fetchPart {version : Option (Nat × Nat) → List UInt8}
    (hs : ServesVersions version env.get) {total : Nat} (hpos : 0 < partSize) (hi : 0 < i)
    {data : List UInt8} (h : fetchPart env total partSize i = .ok data) :
    PartData (assembled version total partSize) partSize i data := by
  have heq := fetchPart_eq hs hpos hi h
  have hlen : data.length = min (partRange total partSize i).2
      ((version (partRequest total partSize i)).length - i * partSize) := by
    rw [heq, List.length_take, List.length_drop]
  refine ⟨?_, ?_, ?_⟩
  · rw [length_assembled, List.prefix_iff_getElem?]
    intro k hk
    rw [List.getElem?_drop]
    have hkr : k < (partRange total partSize i).2 := by omega
    have hget : data[k]? = (version (partRequest total partSize i))[i * partSize + k]? := by
      rw [heq, List.getElem?_take, if_pos hkr, List.getElem?_drop]
    rw [List.getElem?_eq_getElem hk] at hget
    show (assembled version total partSize)[i * partSize + k]? = some data[k]
    rw [getElem?_assembled_part (Nat.le_add_right _ _)
      (Nat.add_lt_add_left hkr (i * partSize)), ← hget, Option.getD_some]
  · intro hne
    have hlt := List.length_pos_iff.mpr hne
    rw [length_assembled]
    simp only [partRange] at hlen ⊢
    omega
  · intro p hlo hhi
    rw [length_assembled] at hlo hhi
    have hoff : (partRange total partSize i).1 = i * partSize := rfl
    have hp : p < i * partSize + (partRange total partSize i).2 := hhi
    rw [getElem?_assembled_part (by omega) hhi,
      List.getElem?_eq_none (by omega), Option.getD_none]

/-- What a part knows of the file: what it has left to write belongs there, and if
it is to end well, all of its range but that is right. -/
def PartKnows (obj : List UInt8) (partSize i : Nat) : PartPhase → LocalFile → Prop
  | .fetching, _ => True
  | .writing off data result, f =>
    data <+: obj.drop off ∧ (data ≠ [] → off + data.length ≤ obj.length) ∧
      (result = .ok () → RightOn obj (i * partSize) off f ∧
        RightOn obj (off + data.length) (partEnd obj.length partSize i) f)

/-- A part that ended well has made its range right. -/
def PartDone (obj : List UInt8) (partSize i : Nat) (r : Except StorageError Unit)
    (f : LocalFile) : Prop :=
  r = .ok () → RightOn obj (i * partSize) (partEnd obj.length partSize i) f

theorem PartKnows.mono {ph : PartPhase} {f f' : LocalFile} (hkeep : KeepsRight obj f f')
    (h : PartKnows obj partSize i ph f) : PartKnows obj partSize i ph f' := by
  cases ph with
  | fetching => exact trivial
  | writing off data result =>
    obtain ⟨hdata, hle, hok⟩ := h
    exact ⟨hdata, hle, fun hres => ⟨(hok hres).1.mono hkeep, (hok hres).2.mono hkeep⟩⟩

/-- A step of a part that goes on. -/
theorem partWork_knows
    (hfetch : ∀ data, fetchPart env obj.length partSize i = .ok data → PartData obj partSize i data)
    {ph ph' : PartPhase} {e : Nat × Int} {f f' : LocalFile} (hf : f.bytes.length = obj.length)
    (hzero : ∀ p, i * partSize ≤ p → obj[p]? = some 0 → f.bytes[p]? = obj[p]?)
    (hph : PartKnows obj partSize i ph f)
    (h : partWork env obj.length partSize i ph e f = some (f', .inl ph')) :
    f'.bytes.length = obj.length ∧ KeepsRight obj f f' ∧ PartKnows obj partSize i ph' f' := by
  cases ph with
  | fetching =>
    rw [partWork] at h
    cases hans : fetchPart env obj.length partSize i with
    | error e => simp [hans] at h
    | ok data =>
      simp only [hans, Option.some.injEq, Prod.mk.injEq, Sum.inl.injEq] at h
      obtain ⟨rfl, rfl⟩ := h
      obtain ⟨hcut, hinside, hshort⟩ := hfetch data hans
      refine ⟨hf, KeepsRight.rfl, (written_isPrefix _ _).trans hcut, ?_, ?_⟩
      · intro hne
        have hwle := length_written_le (env.write i) data
        have hdata : data ≠ [] := by
          rintro rfl
          exact hne (List.prefix_nil.mp (written_isPrefix _ _))
        have := hinside hdata
        omega
      · intro hres
        have hwrite : (env.write i).result = .ok () := by
          unfold writeResult at hres
          split at hres
          · cases hres
          · exact hres
        rw [WriteFault.eq_none_of_result hwrite, WriteFault.written]
        refine ⟨?_, ?_⟩
        · intro p hlo hhi
          simp only [partRange] at hhi
          omega
        · -- the answer ended early, and nothing has been written there
          intro p hlo hhi
          refine hzero p ?_ (hshort p hlo hhi)
          simp only [partRange] at hlo
          omega
  | writing off data result =>
    obtain ⟨hdata, hle, hok⟩ := hph
    rw [partWork] at h
    split at h
    · simp at h
    · rename_i hne
      split at h
      · rename_i hn
        simp only [Option.some.injEq, Prod.mk.injEq, Sum.inl.injEq] at h
        obtain ⟨rfl, rfl⟩ := h
        have hle := hle (by simpa using hne)
        have htake : (data.take e.1).length = e.1 := by
          rw [List.length_take]
          omega
        have hpre : data.take e.1 <+: obj.drop off := (List.take_prefix _ _).trans hdata
        obtain ⟨hlen', hkeep, hright⟩ := writeAt_right hf hpre (by omega) e.2
        rw [htake] at hright
        refine ⟨hlen', hkeep, ?_, ?_, ?_⟩
        · obtain ⟨rest, hrest⟩ := hdata
          refine ⟨rest, ?_⟩
          rw [← List.drop_drop, ← hrest, List.drop_append_of_le_length hn.2]
        · intro _
          rw [List.length_drop]
          omega
        · intro hres
          obtain ⟨hbefore, hafter⟩ := hok hres
          refine ⟨?_, ?_⟩
          · intro p hlo hhi
            by_cases hp : p < off
            · exact hkeep p (hbefore p hlo hp)
            · exact hright p (by omega) hhi
          · rw [List.length_drop, show off + e.1 + (data.length - e.1) = off + data.length by omega]
            exact hafter.mono hkeep
      · cases h

/-- The last step of a part. -/
theorem partWork_ends {ph : PartPhase} {e : Nat × Int} {f f' : LocalFile}
    {r : Except StorageError Unit} (hph : PartKnows obj partSize i ph f)
    (h : partWork env obj.length partSize i ph e f = some (f', .inr r)) :
    f' = f ∧ PartDone obj partSize i r f := by
  cases ph with
  | fetching =>
    rw [partWork] at h
    cases hfetch : fetchPart env obj.length partSize i with
    | error e =>
      simp only [hfetch, Option.some.injEq, Prod.mk.injEq, Sum.inr.injEq] at h
      obtain ⟨rfl, rfl⟩ := h
      exact ⟨rfl, fun hres => by cases hres⟩
    | ok data => simp [hfetch] at h
  | writing off data result =>
    obtain ⟨-, -, hok⟩ := hph
    rw [partWork] at h
    split at h
    · rename_i hempty
      simp only [Option.some.injEq, Prod.mk.injEq, Sum.inr.injEq] at h
      obtain ⟨rfl, rfl⟩ := h
      refine ⟨rfl, fun hres => ?_⟩
      obtain ⟨hbefore, hafter⟩ := hok hres
      rw [List.isEmpty_iff.mp hempty, List.length_nil, Nat.add_zero] at hafter
      intro p hlo hhi
      by_cases hp : p < off
      · exact hbefore p hlo hp
      · exact hafter p (Nat.le_of_not_lt hp) hhi
    · split at h <;> simp at h

theorem div_lt_nParts {total p : Nat} (hpos : 0 < partSize) (hp : p < total) :
    p / partSize < nParts total partSize := by
  have hle : p / partSize * partSize ≤ p := Nat.div_mul_le_self p partSize
  refine (Nat.le_div_iff_mul_le hpos).mpr ?_
  rw [Nat.succ_mul]
  omega

/-- Each byte of the object is in the range of the part it belongs to. -/
theorem mem_part {total p : Nat} (hpos : 0 < partSize) (hp : p < total) :
    p / partSize * partSize ≤ p ∧ p < partEnd total partSize (p / partSize) := by
  have hle : p / partSize * partSize ≤ p := Nat.div_mul_le_self p partSize
  have hlt : p < (p / partSize + 1) * partSize := Nat.lt_mul_of_div_lt (Nat.lt_succ_self _) hpos
  rw [Nat.succ_mul] at hlt
  refine ⟨hle, ?_⟩
  simp only [partEnd, partRange]
  omega

/-- The file before the remaining parts: it has its size and the first part, and
nothing after that. -/
structure FirstWritten (obj : List UInt8) (partSize : Nat) (f : LocalFile) : Prop where
  length : f.bytes.length = obj.length
  first : RightOn obj 0 partSize f
  rest : ∀ p, partSize ≤ p → obj[p]? = some 0 → f.bytes[p]? = obj[p]?

theorem FirstWritten.mono {f f' : LocalFile} (h : FirstWritten obj partSize f)
    (hlen : f'.bytes.length = obj.length) (hkeep : KeepsRight obj f f') :
    FirstWritten obj partSize f' where
  length := hlen
  first := h.first.mono hkeep
  rest p hp hz := hkeep p (h.rest p hp hz)

/-- **The remaining parts complete the file**, under every schedule, when they all
end well. -/
theorem downloadRemainingParts_content
    (hfetch : ∀ i data, 0 < i → fetchPart env obj.length opts.partSize i = .ok data →
      PartData obj opts.partSize i data)
    {sched : List (Pool.Event (Nat × Int))} {f : LocalFile} (hf : FirstWritten obj opts.partSize f)
    {out : LocalFile × Except StorageError Unit}
    (h : downloadRemainingParts opts env sched obj.length f = some out) (hok : out.2 = .ok ()) :
    out.1.bytes = obj := by
  have hpos : 0 < opts.partSize := Nat.lt_of_lt_of_le (by decide) opts.le_partSize
  obtain ⟨p, hrun, h⟩ := Option.bind_eq_some_iff.mp h
  split at h
  · rename_i hc
    obtain rfl := Option.some.inj h
    have hknows := Pool.run_knows (T := partTasks opts env obj.length)
      (I := FirstWritten obj opts.partSize) (G := KeepsRight obj)
      (Q := fun j => PartKnows obj opts.partSize (j + 1))
      (R := fun j => PartDone obj opts.partSize (j + 1))
      (fun _ _ _ => trivial)
      (fun j ph e g g' ph' hg hph hw => by
        have hfirst : opts.partSize ≤ (j + 1) * opts.partSize := Nat.le_mul_of_pos_left _ (Nat.succ_pos j)
        obtain ⟨hlen, hkeep, hph'⟩ := partWork_knows (hfetch (j + 1) · (Nat.succ_pos j)) hg.length
          (fun p hp => hg.rest p (Nat.le_trans hfirst hp)) hph hw
        exact ⟨hg.mono hlen hkeep, hkeep, hph'⟩)
      (fun j ph e g g' r hg hph hw => by
        obtain ⟨rfl, hr⟩ := partWork_ends hph hw
        exact ⟨hg, KeepsRight.rfl, hr⟩)
      (fun j ph g g' hkeep hph => hph.mono hkeep)
      (fun j r g g' hkeep hr hres => (hr hres).mono hkeep)
      hf hrun
    apply bytes_eq_of_rightOn hknows.shared.length
    intro q _ hq
    by_cases hq0 : q < opts.partSize
    · exact hknows.shared.first q (Nat.zero_le q) hq0
    · -- the part that has this byte ended, and ended well
      obtain ⟨j, hj⟩ : ∃ j, q / opts.partSize = j + 1 := by
        have := Nat.div_pos (Nat.le_of_not_lt hq0) hpos
        exact ⟨q / opts.partSize - 1, by omega⟩
      have hlt := div_lt_nParts hpos hq
      have hcount : j ∈ List.range (partTasks opts env obj.length).count := by
        rw [List.mem_range]
        show j < nParts obj.length opts.partSize - 1
        omega
      obtain ⟨t, ht, rfl⟩ := List.mem_map.mp ((Pool.results_perm hrun hc).mem_iff.mpr hcount)
      have hdone := hknows.results t ht (firstError_eq_ok.mp hok t ht)
      obtain ⟨hlo, hhi⟩ := mem_part hpos hq
      rw [hj] at hlo hhi
      exact hdone q hlo hhi
  · cases h

end Parts

/-! ## The whole download -/

section Download

variable {opts : DownloadOpts} {env : DownloadEnv} {version : Option (Nat × Nat) → List UInt8}
  {sched : List (Pool.Event (Nat × Int))} {before : Option LocalFile} {out : DownloadOutcome}

/-- The first response reports the size of the content it is from, and has its
first part. -/
theorem ServesVersions.first_eq (hs : ServesVersions version env.get) {resp : GetResponse}
    {first : List UInt8} (hget : env.get (some (0, opts.partSize - 1)) = .ok resp)
    (hfirst : resp.body.collect = .ok first) :
    resp.total = (version (some (0, opts.partSize - 1))).length ∧
      first = (version (some (0, opts.partSize - 1))).take opts.partSize := by
  obtain ⟨hfails, hdata⟩ := Body.collect_eq_ok.mp hfirst
  obtain ⟨-, hcr, -, hall⟩ := hs.answers (some (0, opts.partSize - 1)) resp hget
  have hps := opts.le_partSize
  have hlt := Nat.lt_trans (hs.size_lt (some (0, opts.partSize - 1))) (by decide : 2 ^ 63 < 2 ^ 64)
  refine ⟨?_, ?_⟩
  · rw [GetResponse.total, hcr, parseContentRangeTotal_text hlt]
  · have hcut := hall hfails
    rw [hdata, List.drop_zero, show opts.partSize - 1 + 1 - 0 = opts.partSize by omega] at hcut
    exact hcut

/-- The sized file with the first part. -/
theorem firstWritten_sized {v : List UInt8} {partSize : Nat}
    (hv : version (some (0, partSize - 1)) = v) (t₁ t₂ t₃ : Int) :
    FirstWritten (assembled version v.length partSize) partSize
      (((LocalFile.truncated t₁).setLen t₂ v.length).writeAt t₃ 0 (v.take partSize)) := by
  have hsized : ((LocalFile.truncated t₁).setLen t₂ v.length).bytes = List.replicate v.length 0 := by
    simp [LocalFile.setLen, LocalFile.truncated]
  have hlen : ((LocalFile.truncated t₁).setLen t₂ v.length).bytes.length = v.length := by
    rw [hsized, List.length_replicate]
  have hfit : 0 + (v.take partSize).length ≤
      ((LocalFile.truncated t₁).setLen t₂ v.length).bytes.length := by
    rw [hlen, List.length_take]
    omega
  have hget : ∀ p, (((LocalFile.truncated t₁).setLen t₂ v.length).writeAt t₃ 0
      (v.take partSize)).bytes[p]? = if p < min partSize v.length then v[p]? else
        if p < v.length then some 0 else none := by
    intro p
    rw [LocalFile.writeAt_bytes, Bytes.getElem?_writeAt hfit p, hsized, List.getElem?_replicate,
      List.length_take, Nat.zero_add, Nat.sub_zero]
    by_cases hp : p < min partSize v.length
    · rw [if_pos ⟨Nat.zero_le p, hp⟩, if_pos hp, List.getElem?_take, if_pos (by omega)]
    · rw [if_neg (fun h => hp h.2), if_neg hp]
  refine ⟨?_, ?_, ?_⟩
  · rw [LocalFile.writeAt_bytes, Bytes.length_writeAt_of_le hfit, hlen, length_assembled]
  · intro p _ hp
    rw [hget]
    by_cases hlt : p < v.length
    · rw [if_pos (by omega), getElem?_assembled hlt, Nat.div_eq_of_lt hp]
      show v[p]? = some (((version (some (0, partSize - 1)))[p]?).getD 0)
      rw [hv, List.getElem?_eq_getElem hlt, Option.getD_some]
    · rw [if_neg (by omega), if_neg hlt, List.getElem?_eq_none (by simpa using hlt)]
  · intro p hp hzero
    have hlt : p < v.length := by
      by_contra hge
      rw [List.getElem?_eq_none (by simpa using hge)] at hzero
      cases hzero
    rw [hget, if_neg (by omega), if_pos hlt, hzero]

theorem downloadParts_assembled (hs : ServesVersions version env.get) {resp : GetResponse}
    {first : List UInt8} (hget : env.get (some (0, opts.partSize - 1)) = .ok resp)
    (hfirst : resp.body.collect = .ok first)
    (h : downloadParts opts env sched resp first = some out) (hok : out.result = .ok ()) :
    ∃ f, out.file = some f ∧ f.bytes =
      assembled version (version (some (0, opts.partSize - 1))).length opts.partSize := by
  have hpos : 0 < opts.partSize := Nat.lt_of_lt_of_le (by decide) opts.le_partSize
  obtain ⟨htotal, rfl⟩ := hs.first_eq hget hfirst
  have hsized := firstWritten_sized (Eq.refl (version (some (0, opts.partSize - 1)))) (env.clock 0)
    (env.clock 1) (env.clock 2)
  simp only [downloadParts, htotal] at h
  split at h
  · obtain rfl := Option.some.inj h
    cases hok
  · split at h
    · obtain rfl := Option.some.inj h
      cases hok
    · rename_i hwrite
      rw [WriteFault.eq_none_of_result hwrite, WriteFault.written] at h
      generalize ((LocalFile.truncated (env.clock 0)).setLen (env.clock 1)
        (version (some (0, opts.partSize - 1))).length).writeAt (env.clock 2) 0
          ((version (some (0, opts.partSize - 1))).take opts.partSize) = sized at h hsized
      split at h
      · obtain ⟨res, hres, rfl⟩ := Option.map_eq_some_iff.mp h
        cases hr : res.2 with
        | error e => simp [hr] at hok
        | ok u =>
          refine ⟨restoreMtime opts env resp res.1, rfl, ?_⟩
          rw [restoreMtime_bytes]
          have hsize : (assembled version (version (some (0, opts.partSize - 1))).length
              opts.partSize).length = (version (some (0, opts.partSize - 1))).length := length_assembled
          rw [← hsize] at hres
          refine downloadRemainingParts_content ?_ hsized hres hr
          intro i data hi hdata
          rw [length_assembled] at hdata
          exact partData_of_fetchPart hs hpos hi hdata
      · -- the first part is the whole object
        rename_i hge
        obtain rfl := Option.some.inj h
        refine ⟨_, rfl, ?_⟩
        rw [restoreMtime_bytes]
        refine bytes_eq_of_rightOn hsized.length fun p hlo hhi => ?_
        rw [length_assembled] at hhi
        exact hsized.first p hlo (by omega)

/-- **What a download that returns success has written**, under every schedule of
its parts and however its requests fall between the overwrites of the object: the
content that answers the one request of the fallback, or what the contents that
answer the parts are put together to. -/
theorem download_assembled (hdry : opts.dryRun = false) (hs : ServesVersions version env.get)
    (h : download opts env sched before = some out) (hok : out.result = .ok ()) :
    ∃ f, out.file = some f ∧
      (((∃ e, env.get (some (0, opts.partSize - 1)) = .error e ∧ isRangeNotSatisfiable e = true) ∧
          f.bytes = version none) ∨
        ((∃ resp, env.get (some (0, opts.partSize - 1)) = .ok resp) ∧ f.bytes =
          assembled version (version (some (0, opts.partSize - 1))).length opts.partSize)) := by
  rcases download_cases h with ⟨-, hdry' | ⟨e, he⟩⟩ |
    ⟨-, -, e, resp, hget, hrange, hwhole, -, rfl⟩ | ⟨-, -, resp, first, hget, hfirst, -, hparts⟩
  · rw [hdry] at hdry'
    cases hdry'
  · rw [hok] at he
    cases he
  · obtain ⟨hfails, f, hf, hbytes⟩ := streamChunks_content hok
    refine ⟨f, hf, Or.inl ⟨⟨e, hget, hrange⟩, ?_⟩⟩
    rw [hbytes, (hs.answers none resp hwhole).2 hfails]
    rfl
  · obtain ⟨f, hf, hbytes⟩ := downloadParts_assembled hs hget hfirst hparts hok
    exact ⟨f, hf, Or.inr ⟨⟨resp, hget⟩, hbytes⟩⟩

end Download

end Rs5cmd
