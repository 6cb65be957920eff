import Rs5cmd.Storage.S3.Upload

/-!
# What an upload stores

Whatever the order in which the parts end, the store is told to assemble them in
the order of the file: an upload that returns success has stored exactly the
file's bytes.
-/

namespace Rs5cmd

/-! ## The parts of a file -/

/-- A file cut at multiples of the part size. -/
theorem flatten_chunks {α : Type*} (data : List α) (size n : Nat) :
    ((List.range n).map fun i => (data.drop (i * size)).take size).flatten =
      data.take (n * size) := by
  induction n with
  | zero => simp
  | succ n ih =>
    rw [List.range_succ, List.map_append, List.flatten_append, ih, Nat.succ_mul, List.take_add]
    simp

theorem partBody_eq (data : List UInt8) (partSize i : Nat) :
    partBody data partSize i = (data.drop (i * partSize)).take partSize := by
  simp only [partBody, partRange]
  rw [← List.length_drop, ← List.take_take, List.take_length]

theorem le_nParts_mul {total partSize : Nat} (hpos : 0 < partSize) :
    total ≤ nParts total partSize * partSize := by
  have hlt := Nat.lt_div_mul_add hpos (a := total + partSize - 1)
  unfold nParts
  omega

/-- The parts of a file are the file. -/
theorem flatten_partBody (data : List UInt8) {partSize : Nat} (hpos : 0 < partSize) :
    ((List.range (nParts data.length partSize)).map (partBody data partSize)).flatten = data := by
  have hbody : partBody data partSize = fun i => (data.drop (i * partSize)).take partSize :=
    funext (partBody_eq data partSize)
  rw [hbody, flatten_chunks, List.take_of_length_le (le_nParts_mul hpos)]

/-- The number of parts of a file of at most 5 TiB fits an `i32`. -/
theorem uploadPartCount_eq (opts : UploadOpts) {size : Nat} (h : size ≤ 5 * 2 ^ 40) :
    uploadPartCount size opts.partSize = nParts size opts.partSize := by
  have hps := opts.le_partSize
  have hle : nParts size opts.partSize ≤ 2 ^ 21 := by
    unfold nParts
    refine Nat.div_le_of_le_mul ?_
    have hmul : 5 * 1024 * 1024 * 2 ^ 21 ≤ opts.partSize * 2 ^ 21 := Nat.mul_le_mul_right _ hps
    omega
  unfold uploadPartCount
  rw [Int.bmod_eq_of_le (by omega) (by omega), Int.toNat_natCast]

/-! ## The tasks -/

theorem map_ok_injective {α : Type} :
    Function.Injective (List.map (Except.ok : α → Except StorageError α)) :=
  List.map_injective_iff.mpr fun _ _ h => Except.ok.inj h

theorem collectResults_eq_ok {α : Type} {rs : List (Nat × Except StorageError α)} {as : List α} :
    collectResults rs = .ok as ↔ rs.map Prod.snd = as.map Except.ok := by
  induction rs generalizing as with
  | nil => simp [collectResults, eq_comm]
  | cons t rs ih =>
    obtain ⟨i, r⟩ := t
    cases r with
    | error e =>
      cases as <;> simp [collectResults]
    | ok a =>
      rw [collectResults]
      cases hrs : collectResults rs with
      | error e =>
        cases as with
        | nil => simp
        | cons b bs =>
          have hne : rs.map Prod.snd ≠ bs.map Except.ok := by
            intro heq
            rw [ih.mpr heq] at hrs
            cases hrs
          simp [hne]
      | ok bs =>
        have hbs := ih.mp hrs
        cases as with
        | nil => simp
        | cons b cs =>
          simp [hbs, map_ok_injective.eq_iff]

/-- What is collected comes from successes only. -/
theorem ok_of_collectResults {α : Type} {rs : List (Nat × Except StorageError α)} {as : List α}
    (h : collectResults rs = .ok as) : ∀ t ∈ rs, ∃ a, t.2 = .ok a := by
  intro t ht
  have hmem : t.2 ∈ as.map Except.ok := collectResults_eq_ok.mp h ▸ List.mem_map_of_mem ht
  obtain ⟨a, -, ha⟩ := List.mem_map.mp hmem
  exact ⟨a, ha.symm⟩

section Parts

variable {opts : UploadOpts} {env : UploadEnv} {data : List UInt8}

/-- What part `i` is completed with. -/
def completedPart (env : UploadEnv) (data : List UInt8) (partSize i : Nat) : CompletedPart :=
  ⟨i + 1, env.etag (partBody data partSize i)⟩

/-- The store has part `i` of the file. -/
def HasPart (data : List UInt8) (partSize i : Nat) (stored : List (Nat × List UInt8)) : Prop :=
  stored.lookup (i + 1) = some (partBody data partSize i)

theorem hasPart_cons (data : List UInt8) (partSize i : Nat) (stored : List (Nat × List UInt8)) :
    HasPart data partSize i ((i + 1, partBody data partSize i) :: stored) := by
  simp [HasPart]

/-- A part that arrives takes none away. -/
theorem HasPart.cons {partSize j : Nat} {stored : List (Nat × List UInt8)}
    (h : HasPart data partSize j stored) (i : Nat) :
    HasPart data partSize j ((i + 1, partBody data partSize i) :: stored) := by
  by_cases hij : j = i
  · subst hij
    exact hasPart_cons data partSize j stored
  · have hne : (j + 1 == i + 1) = false := by simp [hij]
    rw [HasPart, List.lookup_cons, hne]
    exact h

/-- Nothing fails in part `i`. -/
def PartFaultless (env : UploadEnv) (i : Nat) : Prop := env.readFrom i = none ∧ env.uploadPart i = none

/-- What a part that has ended knows: if it ended well the store has it, and it
ends well just when it has no fault. -/
def UploadDone (env : UploadEnv) (data : List UInt8) (partSize i : Nat)
    (r : Except StorageError CompletedPart) (stored : List (Nat × List UInt8)) : Prop :=
  (∀ cp, r = .ok cp → cp = completedPart env data partSize i ∧ HasPart data partSize i stored) ∧
    ((∃ cp, r = .ok cp) ↔ PartFaultless env i)

theorem uploadDone_error {partSize i : Nat} (h : ¬ PartFaultless env i)
    (e : StorageError) (stored : List (Nat × List UInt8)) :
    UploadDone env data partSize i (.error e) stored := by
  refine ⟨?_, iff_of_false ?_ h⟩
  · intro cp hcp
    cases hcp
  · rintro ⟨cp, hcp⟩
    cases hcp

/-- Everything the last step of a part can do. -/
theorem uploadWork_sending {partSize i : Nat} {stored stored' : List (Nat × List UInt8)}
    {out : UploadPhase ⊕ Except StorageError CompletedPart} (hread : env.readFrom i = none)
    (h : uploadWork env data partSize i (.sending (partBody data partSize i)) () stored =
      some (stored', out)) :
    (stored' = stored ∨ stored' = (i + 1, partBody data partSize i) :: stored) ∧
      ∃ r, out = .inr r ∧ UploadDone env data partSize i r stored' := by
  rw [uploadWork] at h
  rcases hfault : env.uploadPart i with _ | ⟨applied, e⟩
  · simp only [hfault, WriteRequestFault.send, Option.some.injEq, Prod.mk.injEq] at h
    obtain ⟨rfl, rfl⟩ := h
    refine ⟨.inr rfl, _, rfl, ?_, iff_of_true ⟨_, rfl⟩ ⟨hread, hfault⟩⟩
    intro cp hcp
    exact ⟨(Except.ok.inj hcp).symm, hasPart_cons data partSize i stored⟩
  · have hne : ¬ PartFaultless env i := by
      rintro ⟨-, hnone⟩
      rw [hfault] at hnone
      cases hnone
    cases applied with
    | false =>
      simp only [hfault, WriteRequestFault.send, Option.some.injEq, Prod.mk.injEq] at h
      obtain ⟨rfl, rfl⟩ := h
      exact ⟨.inl rfl, _, rfl, uploadDone_error hne _ _⟩
    | true =>
      simp only [hfault, WriteRequestFault.send, Option.some.injEq, Prod.mk.injEq] at h
      obtain ⟨rfl, rfl⟩ := h
      exact ⟨.inr rfl, _, rfl, uploadDone_error hne _ _⟩

/-- Everything the first step of a part can do. -/
theorem uploadWork_reading {partSize i : Nat} {stored stored' : List (Nat × List UInt8)}
    {out : UploadPhase ⊕ Except StorageError CompletedPart}
    (h : uploadWork env data partSize i .reading () stored = some (stored', out)) :
    stored' = stored ∧ ((out = .inl (.sending (partBody data partSize i)) ∧ env.readFrom i = none) ∨
      ∃ r, out = .inr r ∧ UploadDone env data partSize i r stored') := by
  rw [uploadWork] at h
  cases hfault : env.readFrom i with
  | none =>
    simp only [hfault, Option.some.injEq, Prod.mk.injEq] at h
    obtain ⟨rfl, rfl⟩ := h
    exact ⟨rfl, .inl ⟨rfl, rfl⟩⟩
  | some e =>
    simp only [hfault, Option.some.injEq, Prod.mk.injEq] at h
    obtain ⟨rfl, rfl⟩ := h
    refine ⟨rfl, .inr ⟨_, rfl, uploadDone_error ?_ _ _⟩⟩
    rintro ⟨hnone, -⟩
    rw [hfault] at hnone
    cases hnone

/-- The tasks of the first `n` parts, of any size. -/
def fileTasks (env : UploadEnv) (data : List UInt8) (partSize limit n : Nat) :
    Tasks (List (Nat × List UInt8)) UploadPhase (Except StorageError CompletedPart) Unit where
  count := n
  limit := limit
  start := fun _ => .reading
  work := uploadWork env data partSize

/-- **The parts, under every schedule**: those that end well are in the store. -/
theorem fileTasks_knows {partSize limit n : Nat} {sched : List (Pool.Event Unit)}
    {p : Pool (List (Nat × List UInt8)) UploadPhase (Except StorageError CompletedPart)}
    (h : Machine.run (Pool.step (fileTasks env data partSize limit n)) { shared := [] } sched = some p) :
    ∀ t ∈ p.results, UploadDone env data partSize t.1 t.2 p.shared := by
  have hknows := Pool.run_knows (T := fileTasks env data partSize limit n) (I := fun _ => True)
    (G := fun s s' => ∀ j, HasPart data partSize j s → HasPart data partSize j s')
    (Q := fun i ph _ => ph = .reading ∨
      ph = .sending (partBody data partSize i) ∧ env.readFrom i = none)
    (R := fun i => UploadDone env data partSize i)
    (fun _ _ _ => .inl rfl)
    (fun i ph e s s' ph' _ hph hw => by
      rcases hph with rfl | ⟨rfl, hread⟩
      · obtain ⟨rfl, ⟨hout, hread⟩ | ⟨r, hr, -⟩⟩ := uploadWork_reading hw
        · exact ⟨trivial, fun _ hj => hj, .inr ⟨Sum.inl.inj hout, hread⟩⟩
        · cases hr
      · obtain ⟨-, r, hr, -⟩ := uploadWork_sending hread hw
        cases hr)
    (fun i ph e s s' r _ hph hw => by
      rcases hph with rfl | ⟨rfl, hread⟩
      · obtain ⟨rfl, ⟨hout, -⟩ | ⟨r', hr, hdone⟩⟩ := uploadWork_reading hw
        · cases hout
        · obtain rfl := Sum.inr.inj hr
          exact ⟨trivial, fun _ hj => hj, hdone⟩
      · obtain ⟨hs, r', hr, hdone⟩ := uploadWork_sending hread hw
        obtain rfl := Sum.inr.inj hr
        refine ⟨trivial, fun j hj => ?_, hdone⟩
        rcases hs with rfl | rfl
        · exact hj
        · exact hj.cons i)
    (fun _ _ _ _ _ hph => hph)
    (fun i r s s' hG hr => ⟨fun cp hcp => ⟨(hr.1 cp hcp).1, hG i (hr.1 cp hcp).2⟩, hr.2⟩)
    trivial h
  exact hknows.results

/-- The parts in the order of the file. -/
def allParts (env : UploadEnv) (data : List UInt8) (partSize n : Nat) : List CompletedPart :=
  (List.range n).map (completedPart env data partSize)

theorem pairwise_allParts (env : UploadEnv) (data : List UInt8) (partSize n : Nat) :
    (allParts env data partSize n).Pairwise fun a b => a.partNumber < b.partNumber := by
  rw [allParts, List.pairwise_map]
  refine List.pairwise_lt_range.imp ?_
  intro i j hij
  exact Nat.succ_lt_succ hij

/-- Sorting by part number puts the parts in the order of the file, whatever the
order in which they ended. -/
theorem sortParts_eq {partSize n : Nat} {parts : List CompletedPart}
    (h : parts.Perm (allParts env data partSize n)) :
    sortParts parts = allParts env data partSize n := by
  have htrans : ∀ a b c : CompletedPart, decide (a.partNumber ≤ b.partNumber) = true →
      decide (b.partNumber ≤ c.partNumber) = true → decide (a.partNumber ≤ c.partNumber) = true := by
    intro a b c hab hbc
    simp only [decide_eq_true_eq] at *
    omega
  have htotal : ∀ a b : CompletedPart,
      (decide (a.partNumber ≤ b.partNumber) || decide (b.partNumber ≤ a.partNumber)) = true := by
    intro a b
    simp only [Bool.or_eq_true, decide_eq_true_eq]
    omega
  have hsorted := List.pairwise_mergeSort htrans htotal parts
  have hperm : (sortParts parts).Perm (allParts env data partSize n) :=
    (List.mergeSort_perm parts _).trans h
  refine List.Perm.eq_of_pairwise ?_ hsorted ?_ hperm
  · -- two parts of the file with one number are one part
    intro a b ha hb hab hba
    simp only [decide_eq_true_eq] at hab hba
    obtain ⟨i, -, rfl⟩ := List.mem_map.mp (hperm.mem_iff.mp ha)
    obtain ⟨j, -, rfl⟩ := List.mem_map.mp hb
    simp only [completedPart] at hab hba
    obtain rfl : i = j := by omega
    rfl
  · refine (pairwise_allParts env data partSize n).imp ?_
    intro a b hab
    simpa using Nat.le_of_lt hab

theorem mapM_eq_map {α β : Type} {f : α → Option β} {g : α → β} {l : List α}
    (h : ∀ a ∈ l, f a = some (g a)) : l.mapM f = some (l.map g) := by
  induction l with
  | nil => rfl
  | cons a l ih =>
    rw [List.mapM_cons, h a List.mem_cons_self, ih fun b hb => h b (List.mem_cons_of_mem a hb)]
    rfl

/-- The store assembles the first `n` parts. -/
theorem assembleParts_allParts {partSize n : Nat} {stored : List (Nat × List UInt8)}
    (h : ∀ i < n, HasPart data partSize i stored) :
    assembleParts env stored (allParts env data partSize n) =
      .ok ((List.range n).map (partBody data partSize)).flatten := by
  have hbodies : ((allParts env data partSize n).mapM fun p =>
      (stored.lookup p.partNumber).filter fun b => env.etag b = p.etag) =
        some ((List.range n).map (partBody data partSize)) := by
    rw [allParts, List.mapM_map]
    apply mapM_eq_map
    intro i hi
    have hpart : stored.lookup (i + 1) = some (partBody data partSize i) :=
      h i (List.mem_range.mp hi)
    simp [completedPart, hpart]
  rw [assembleParts, if_pos (pairwise_allParts env data partSize _), hbodies]

/-- Where every part ends well, the results are the completed parts. -/
theorem results_values {partSize : Nat} {rs : List (Nat × Except StorageError CompletedPart)}
    {stored : List (Nat × List UInt8)}
    (hdone : ∀ t ∈ rs, UploadDone env data partSize t.1 t.2 stored)
    (hok : ∀ t ∈ rs, ∃ cp, t.2 = .ok cp) :
    rs.map Prod.snd = ((rs.map Prod.fst).map (completedPart env data partSize)).map Except.ok := by
  rw [List.map_map, List.map_map]
  refine List.map_congr_left fun t ht => ?_
  obtain ⟨cp, hcp⟩ := hok t ht
  rw [hcp, ((hdone t ht).1 cp hcp).1]
  rfl

/-- **Parts that are collected are sorted** to the parts in the order of the file. -/
theorem sortParts_fileTasks {partSize limit n : Nat} {sched : List (Pool.Event Unit)}
    {p : Pool (List (Nat × List UInt8)) UploadPhase (Except StorageError CompletedPart)}
    (hrun : Machine.run (Pool.step (fileTasks env data partSize limit n)) { shared := [] } sched = some p)
    (hc : Pool.Complete (fileTasks env data partSize limit n) p) {as : List CompletedPart}
    (has : collectResults p.results = .ok as) : sortParts as = allParts env data partSize n := by
  have hperm : (p.results.map Prod.fst).Perm (List.range n) := Pool.results_perm hrun hc
  have hvalues : as = (p.results.map Prod.fst).map (completedPart env data partSize) :=
    map_ok_injective ((collectResults_eq_ok.mp has).symm.trans
      (results_values (fileTasks_knows hrun) (ok_of_collectResults has)))
  exact sortParts_eq (hvalues ▸ hperm.map _)

/-- Parts that have all ended are collected just when none has a fault, and then
the store has them and is told them in the order of the file. -/
theorem collectResults_fileTasks {partSize limit n : Nat} {sched : List (Pool.Event Unit)}
    {p : Pool (List (Nat × List UInt8)) UploadPhase (Except StorageError CompletedPart)}
    (hrun : Machine.run (Pool.step (fileTasks env data partSize limit n)) { shared := [] } sched = some p)
    (hc : Pool.Complete (fileTasks env data partSize limit n) p) :
    ((∃ as, collectResults p.results = .ok as) ↔ ∀ i < n, PartFaultless env i) ∧
      ∀ as, collectResults p.results = .ok as → assembleParts env p.shared (sortParts as) =
        .ok ((List.range n).map (partBody data partSize)).flatten := by
  have hperm : (p.results.map Prod.fst).Perm (List.range n) := Pool.results_perm hrun hc
  have hdone := fileTasks_knows hrun
  have hresult : ∀ i < n, ∃ t ∈ p.results, t.1 = i := by
    intro i hi
    obtain ⟨t, ht, rfl⟩ := List.mem_map.mp (hperm.mem_iff.mpr (List.mem_range.mpr hi))
    exact ⟨t, ht, rfl⟩
  refine ⟨⟨?_, ?_⟩, ?_⟩
  · rintro ⟨as, has⟩ i hi
    obtain ⟨t, ht, rfl⟩ := hresult i hi
    exact (hdone t ht).2.mp (ok_of_collectResults has t ht)
  · intro hfault
    refine ⟨_, collectResults_eq_ok.mpr (results_values hdone fun t ht => (hdone t ht).2.mpr ?_)⟩
    exact hfault t.1 (List.mem_range.mp (hperm.mem_iff.mp (List.mem_map_of_mem ht)))
  · intro as has
    rw [sortParts_fileTasks hrun hc has]
    refine assembleParts_allParts fun i hi => ?_
    obtain ⟨t, ht, rfl⟩ := hresult i hi
    obtain ⟨cp, hcp⟩ := ok_of_collectResults has t ht
    exact ((hdone t ht).1 cp hcp).2

/-- **The parts of an upload**: they all end well just when none has a fault, and
then the store can assemble them. -/
theorem uploadParts_spec {sched : List (Pool.Event Unit)} {stored : List (Nat × List UInt8)}
    {r : Except StorageError (List CompletedPart)}
    (h : uploadParts opts env sched data = some (stored, r)) :
    ((∃ parts, r = .ok parts) ↔
      ∀ i < uploadPartCount data.length opts.partSize, PartFaultless env i) ∧
      ∀ parts, r = .ok parts → assembleParts env stored parts =
        .ok ((List.range (uploadPartCount data.length opts.partSize)).map
          (partBody data opts.partSize)).flatten := by
  obtain ⟨p, hrun, h⟩ := Option.bind_eq_some_iff.mp h
  split at h
  · rename_i hc
    simp only [Option.some.injEq, Prod.mk.injEq] at h
    obtain ⟨rfl, rfl⟩ := h
    obtain ⟨hiff, hassemble⟩ := collectResults_fileTasks
      (n := uploadPartCount data.length opts.partSize) hrun hc
    cases hcollect : collectResults p.results with
    | error e =>
      rw [hcollect] at hiff
      refine ⟨⟨?_, ?_⟩, ?_⟩
      · rintro ⟨parts, hparts⟩
        cases hparts
      · intro hfault
        obtain ⟨as, has⟩ := hiff.mpr hfault
        cases has
      · intro parts hparts
        cases hparts
    | ok as =>
      refine ⟨iff_of_true ⟨_, rfl⟩ (hiff.mp ⟨as, hcollect⟩), ?_⟩
      intro parts hparts
      obtain rfl : sortParts as = parts := Except.ok.inj hparts
      exact hassemble as hcollect
  · cases h

/-- **The parts that are completed** are those of the file, in its order. -/
theorem uploadParts_completed {sched : List (Pool.Event Unit)} {stored : List (Nat × List UInt8)}
    {parts : List CompletedPart} (h : uploadParts opts env sched data = some (stored, .ok parts)) :
    parts = allParts env data opts.partSize (uploadPartCount data.length opts.partSize) := by
  obtain ⟨p, hrun, h⟩ := Option.bind_eq_some_iff.mp h
  split at h
  · rename_i hc
    obtain ⟨as, has, rfl⟩ : ∃ as, collectResults p.results = .ok as ∧ sortParts as = parts := by
      have hmap : (collectResults p.results).map sortParts = .ok parts :=
        (Prod.ext_iff.mp (Option.some.inj h)).2
      cases hcollect : collectResults p.results with
      | error e =>
        rw [hcollect] at hmap
        cases hmap
      | ok as =>
        rw [hcollect] at hmap
        exact ⟨as, rfl, Except.ok.inj hmap⟩
    exact sortParts_fileTasks hrun hc has
  · cases h

/-- The parts of a file of at most 5 TiB are assembled to the file. -/
theorem uploadParts_ok (hcount : uploadPartCount data.length opts.partSize =
      nParts data.length opts.partSize) {sched : List (Pool.Event Unit)}
    {stored : List (Nat × List UInt8)} {parts : List CompletedPart}
    (h : uploadParts opts env sched data = some (stored, .ok parts)) :
    assembleParts env stored parts = .ok data := by
  have hpos : 0 < opts.partSize := Nat.lt_of_lt_of_le (by decide) opts.le_partSize
  rw [(uploadParts_spec h).2 parts rfl, hcount, flatten_partBody data hpos]

/-- Parts without a fault all end well. -/
theorem uploadParts_faultless (hread : ∀ i, env.readFrom i = none)
    (hsend : ∀ i, env.uploadPart i = none) {sched : List (Pool.Event Unit)}
    {stored : List (Nat × List UInt8)} {r : Except StorageError (List CompletedPart)}
    (h : uploadParts opts env sched data = some (stored, r)) : ∃ parts, r = .ok parts :=
  (uploadParts_spec h).1.mpr fun i _ => ⟨hread i, hsend i⟩

/-- **The parts come to an end** under some schedule. -/
theorem exists_uploadParts (opts : UploadOpts) (env : UploadEnv) (data : List UInt8) :
    ∃ sched out, uploadParts opts env sched data = some out := by
  have hwork : ∀ i ph s, ∃ e s' out, (uploadTasks opts env data).work i ph e s = some (s', out) ∧
      ∀ ph', out = .inl ph' → (match ph' with | .reading => 1 | .sending _ => 0) <
        (match ph with | .reading => 1 | .sending _ => 0) := by
    intro i ph s
    cases ph with
    | reading =>
      cases hread : env.readFrom i with
      | some e =>
        refine ⟨(), s, .inr (.error e), by simp [uploadTasks, uploadWork, hread], ?_⟩
        intro ph' hph'
        cases hph'
      | none =>
        refine ⟨(), s, .inl (.sending (partBody data opts.partSize i)),
          by simp [uploadTasks, uploadWork, hread], ?_⟩
        intro ph' hph'
        obtain rfl := Sum.inl.inj hph'
        exact Nat.one_pos
    | sending body =>
      cases hsent : ((env.uploadPart i).send s (.ok ((i + 1, body) :: s))).2 with
      | error e =>
        refine ⟨(), _, .inr (.error e.err), by simp [uploadTasks, uploadWork, hsent]; rfl, ?_⟩
        intro ph' hph'
        cases hph'
      | ok u =>
        refine ⟨(), _, .inr (.ok ⟨i + 1, env.etag body⟩),
          by simp [uploadTasks, uploadWork, hsent]; rfl, ?_⟩
        intro ph' hph'
        cases hph'
  obtain ⟨sched, p, hrun, hc⟩ := Pool.exists_complete (T := uploadTasks opts env data)
    opts.concurrency_pos (fun ph => match ph with | .reading => 1 | .sending _ => 0) hwork []
  refine ⟨sched, (p.shared, (collectResults p.results).map sortParts), ?_⟩
  rw [uploadParts, hrun, Option.bind_some, if_pos hc]

end Parts

/-! ## Whole uploads -/

theorem WriteRequestFault.send_ok {σ : Type} {fault : WriteRequestFault} {s : σ}
    {handled : Except GetError σ} (h : (fault.send s handled).2 = .ok ()) :
    handled = .ok (fault.send s handled).1 := by
  rcases fault with _ | ⟨applied, e⟩
  · cases handled with
    | ok s' => rfl
    | error e => cases h
  · cases applied <;> cases handled <;> cases h

theorem storeObject_ok {cond : Bool} {obj : ObjectContent} {before after : Option ObjectContent}
    (h : storeObject cond obj before = .ok after) : after = some obj := by
  unfold storeObject at h
  split at h
  · cases h
  · exact (Except.ok.inj h).symm

section Upload

variable {opts : UploadOpts} {env : UploadEnv} {sched : List (Pool.Event Unit)} {src : LocalFile}
  {dst : Str} {metadata : Metadata} {before : Option ObjectContent} {out : UploadOutcome}

theorem uploadSingle_ok {data : List UInt8}
    (h : (uploadSingle env data dst metadata before).result = .ok ()) :
    (uploadSingle env data dst metadata before).object = some ⟨data, metadata.putAttributes⟩ := by
  cases hbody : singleBody env data with
  | error e => simp [uploadSingle, hbody] at h
  | ok body =>
    obtain rfl : data = body := by
      unfold singleBody at hbody
      dsimp only at hbody
      split at hbody
      · cases hbody
      · exact Except.ok.inj hbody
    cases hsent : (env.putObject.send before
        (storeObject metadata.ifNoneMatch ⟨data, metadata.putAttributes⟩ before)).2 with
    | error e => simp [uploadSingle, hbody, hsent] at h
    | ok u =>
      have hobj := storeObject_ok (WriteRequestFault.send_ok hsent)
      simp [uploadSingle, hbody, hsent, hobj]

theorem finishMultipart_ok {stored : List (Nat × List UInt8)} {data : List UInt8}
    {r : Except StorageError (List CompletedPart)}
    (hr : ∀ parts, r = .ok parts → assembleParts env stored parts = .ok data)
    (h : (finishMultipart env dst metadata before stored r).result = .ok ()) :
    (finishMultipart env dst metadata before stored r).object =
      some ⟨data, metadata.createAttributes⟩ := by
  cases r with
  | error e => simp [finishMultipart] at h
  | ok parts =>
    simp only [finishMultipart, hr parts rfl, Except.bind] at h ⊢
    split at h
    · cases h
    · rename_i hsent
      have hhandled := WriteRequestFault.send_ok hsent
      cases hstore : storeObject metadata.ifNoneMatch ⟨data, metadata.createAttributes⟩ before with
      | error e => simp [hstore, Except.map] at hhandled
      | ok after =>
        simp only [hstore, Except.map, Except.ok.injEq] at hhandled
        rw [Except.map, ← hhandled]
        exact storeObject_ok hstore

/-- The attributes the store is asked for, which depend on the way the file is
sent. -/
def sentAttributes (opts : UploadOpts) (src : LocalFile) (metadata : Metadata) : Attributes :=
  if src.bytes.length ≤ opts.partSize then
    (uploadMetadata opts src.modTime metadata).putAttributes
  else (uploadMetadata opts src.modTime metadata).createAttributes

/-- **An upload that returns success has stored the file's bytes**, under every
schedule of its parts. -/
theorem upload_success (hdry : opts.dryRun = false) (hsize : src.bytes.length ≤ 5 * 2 ^ 40)
    (h : upload opts env sched src dst metadata before = some out) (hok : out.result = .ok ()) :
    out.object = some ⟨src.bytes, sentAttributes opts src metadata⟩ := by
  unfold upload at h
  rw [if_neg (by simp [hdry])] at h
  split at h
  · obtain rfl := Option.some.inj h
    cases hok
  · dsimp only at h
    unfold sentAttributes
    split at h
    · rename_i hle
      obtain rfl := Option.some.inj h
      rw [if_pos hle]
      exact uploadSingle_ok hok
    · rename_i hlt
      rw [if_neg hlt]
      unfold uploadMultipart at h
      dsimp only at h
      split at h
      · obtain rfl := Option.some.inj h
        cases hok
      · split at h
        · obtain rfl := Option.some.inj h
          cases hok
        · obtain ⟨⟨stored, r⟩, hres, rfl⟩ := Option.map_eq_some_iff.mp h
          refine finishMultipart_ok (fun parts hparts => ?_) hok
          obtain rfl : r = .ok parts := hparts
          exact uploadParts_ok (uploadPartCount_eq opts hsize) hres

/-- Nothing that an upload waits for fails. -/
structure UploadEnv.Faultless (env : UploadEnv) : Prop where
  metadata : env.metadata = none
  readFile : env.readFile = none
  fromPath : env.fromPath = none
  putObject : env.putObject = none
  createMultipartUpload : env.createMultipartUpload = none
  uploadId : env.uploadId ≠ none
  readFrom : ∀ i, env.readFrom i = none
  uploadPart : ∀ i, env.uploadPart i = none
  completeMultipartUpload : env.completeMultipartUpload = none

theorem singleBody_faultless (henv : env.Faultless) (data : List UInt8) :
    singleBody env data = .ok data := by
  unfold singleBody
  rw [henv.readFile, henv.fromPath]
  cases env.metadataAgain <;> simp

theorem storeObject_allowed {cond : Bool} (h : cond = false ∨ before = none) (obj : ObjectContent) :
    storeObject cond obj before = .ok (some obj) := by
  rcases h with rfl | rfl <;> simp [storeObject]

theorem uploadMetadata_ifNoneMatch (opts : UploadOpts) (modTime : Int) (m : Metadata) :
    (uploadMetadata opts modTime m).ifNoneMatch = m.ifNoneMatch := by
  unfold uploadMetadata
  split
  · split <;> rfl
  · rfl

/-- **An upload without a fault succeeds**, unless it is conditional and the object
is there already. -/
theorem upload_faultless (henv : env.Faultless) (hsize : src.bytes.length ≤ 5 * 2 ^ 40)
    (hcond : metadata.ifNoneMatch = false ∨ before = none)
    (h : upload opts env sched src dst metadata before = some out) : out.result = .ok () := by
  have hallow : (uploadMetadata opts src.modTime metadata).ifNoneMatch = false ∨ before = none := by
    rwa [uploadMetadata_ifNoneMatch]
  unfold upload at h
  split at h
  · obtain rfl := Option.some.inj h
    rfl
  · rw [henv.metadata] at h
    dsimp only at h
    split at h
    · obtain rfl := Option.some.inj h
      simp [uploadSingle, singleBody_faultless henv, henv.putObject, storeObject_allowed hallow,
        WriteRequestFault.send]
    · obtain ⟨id, hid⟩ := Option.ne_none_iff_exists'.mp henv.uploadId
      simp only [uploadMultipart, henv.createMultipartUpload, WriteRequestFault.send, hid] at h
      obtain ⟨⟨stored, r⟩, hres, rfl⟩ := Option.map_eq_some_iff.mp h
      obtain ⟨parts, rfl⟩ := uploadParts_faultless henv.readFrom henv.uploadPart hres
      have hassemble := uploadParts_ok (uploadPartCount_eq opts hsize) hres
      simp [finishMultipart, hassemble, Except.bind, storeObject_allowed hallow, Except.map,
        henv.completeMultipartUpload, WriteRequestFault.send]

/-- **An upload returns** under some schedule of its parts. -/
theorem exists_upload (opts : UploadOpts) (env : UploadEnv) (src : LocalFile) (dst : Str)
    (metadata : Metadata) (before : Option ObjectContent) :
    ∃ sched out, upload opts env sched src dst metadata before = some out := by
  obtain ⟨sched, res, hres⟩ := exists_uploadParts opts env src.bytes
  refine ⟨sched, ?_⟩
  unfold upload
  split
  · exact ⟨_, rfl⟩
  · split
    · exact ⟨_, rfl⟩
    · dsimp only
      split
      · exact ⟨_, rfl⟩
      · unfold uploadMultipart
        dsimp only
        split
        · exact ⟨_, rfl⟩
        · split
          · exact ⟨_, rfl⟩
          · exact ⟨_, by rw [hres]; rfl⟩

end Upload

end Rs5cmd
