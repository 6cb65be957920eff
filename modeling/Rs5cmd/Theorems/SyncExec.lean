import Rs5cmd.Command.SyncExec

/-!
# The sync executor

Over every plan, every number of workers, every result of every operation and
every completion order: the loops are bounded and account for each task, deletions
wait for all copies and happen only if no copy stopped the run, and the result and
the counts are those of the operations that were executed.
-/

namespace Rs5cmd

/-! ## Tallies -/

section Tally

variable {α : Type}

theorem OpResult.isFailed_of_isFatal {r : OpResult} (h : r.isFatal = true) : r.isFailed = true := by
  cases r with
  | ok u => cases h
  | error e => rfl

theorem Tally.foldl_report (entries : List (α × OpResult)) (t : Tally) :
    entries.foldl Tally.report t =
      { hadError := t.hadError || entries.any fun e => e.2.isFailed
        fatalSeen := t.fatalSeen || entries.any fun e => e.2.isFatal
        ok := t.ok + entries.countP fun e => !e.2.isFailed } := by
  induction entries generalizing t with
  | nil => simp
  | cons e entries ih =>
    obtain ⟨a, r⟩ := e
    rw [List.foldl_cons, ih]
    cases r with
    | ok u =>
      simp only [Tally.report, List.any_cons, OpResult.isFailed, OpResult.isFatal, Bool.false_or,
        Bool.not_false, List.countP_cons_of_pos]
      congr 1
      omega
    | error err =>
      simp [Tally.report, OpResult.isFailed, OpResult.isFatal, Bool.or_assoc]

end Tally

namespace SyncJob

variable {job : SyncJob} {s s' : State}

/-- A result after which a loop spawns nothing more: a fatal error, or any error
under `--exit-on-error`. -/
def Stopping (job : SyncJob) (r : OpResult) : Prop :=
  r.isFatal = true ∨ (job.exitOnError = true ∧ r.isFailed = true)

theorem stops_foldl_iff {α : Type} (entries : List (α × OpResult)) (t : Tally)
    (ht : t.stops job.exitOnError = false) :
    (entries.foldl Tally.report t).stops job.exitOnError = true ↔
      ∃ e ∈ entries, job.Stopping e.2 := by
  rw [Tally.foldl_report]
  unfold Tally.stops at ht ⊢
  simp only [Bool.or_eq_false_iff] at ht
  simp only [ht.2, Bool.false_or, Bool.or_eq_true, Bool.and_eq_true, List.any_eq_true]
  constructor
  · rintro (⟨hexit, hfailed⟩ | ⟨e, he, hfatal⟩)
    · rcases hfailed with hfailed | ⟨e, he, hfailed⟩
      · -- an earlier failure would have stopped the loop before
        have := ht.1
        rw [hexit, hfailed] at this
        cases this
      · exact ⟨e, he, Or.inr ⟨hexit, hfailed⟩⟩
    · exact ⟨e, he, Or.inl hfatal⟩
  · rintro ⟨e, he, hfatal | ⟨hexit, hfailed⟩⟩
    · exact Or.inr ⟨e, he, hfatal⟩
    · exact Or.inl ⟨hexit, Or.inr ⟨e, he, hfailed⟩⟩

/-! ## The invariant -/

/-- The accounts of both loops, and how the result came about. -/
structure Inv (job : SyncJob) (s : State) : Prop where
  copies : JoinLoop.Accounted (job.params (Url × Url)) job.toCopy {} s.copies
  deletes : ∀ d, s.deletes = some d →
    JoinLoop.Finished (job.params (Url × Url)) s.copies ∧
      s.copies.acc.stops job.exitOnError = false ∧
      JoinLoop.Accounted (job.params Url) job.toDelete { hadError := s.copies.acc.hadError } d
  capped : job.overCap = true → s = job.start
  result : job.overCap = false → ∀ r, s.result = some r →
    (s.deletes = none ∧ JoinLoop.Finished (job.params (Url × Url)) s.copies ∧
        s.copies.acc.stops job.exitOnError = true ∧ ∃ m, r = .error m) ∨
      ∃ d, s.deletes = some d ∧ JoinLoop.Finished (job.params Url) d ∧
        (r = .ok () ↔ d.acc.fatalSeen = false ∧ d.acc.hadError = false)

theorem inv_start (job : SyncJob) : job.Inv job.start where
  copies := JoinLoop.accounted_init _ _ _
  deletes := by
    intro d hd
    cases hd
  capped := fun _ => rfl
  result := by
    intro hcap r hr
    simp [start, hcap] at hr

/-- Where the copy loop leads to. -/
theorem afterCopies_cases (job : SyncJob) (s : State) :
    (s.copies.acc.stops job.exitOnError = true ∧
        ∃ m, job.afterCopies s = { s with result := some (.error m) }) ∨
      (s.copies.acc.stops job.exitOnError = false ∧
        job.afterCopies s = { s with
          deletes := some { todo := job.toDelete, acc := { hadError := s.copies.acc.hadError } } }) := by
  unfold afterCopies Tally.stops
  cases hfatal : s.copies.acc.fatalSeen with
  | true => exact Or.inl ⟨by simp, fatalMessage, by simp⟩
  | false =>
    cases hfailed : job.exitOnError && s.copies.acc.hadError with
    | true => exact Or.inl ⟨by simp, failedMessage, by simp⟩
    | false => exact Or.inr ⟨by simp, by simp⟩

/-- Where the delete loop leads to. -/
theorem afterDeletes_cases (s : State) (d : JoinLoop Url OpResult Tally) :
    ∃ r, afterDeletes s d = { s with result := some r } ∧
      (r = .ok () ↔ d.acc.fatalSeen = false ∧ d.acc.hadError = false) := by
  unfold afterDeletes
  cases hfatal : d.acc.fatalSeen with
  | true => exact ⟨.error fatalMessage, by simp, by simp⟩
  | false =>
    cases hfailed : d.acc.hadError with
    | true => exact ⟨.error failedMessage, by simp, by simp⟩
    | false => exact ⟨.ok (), by simp, by simp⟩

/-- No step is possible from a state with a result. -/
theorem Step.result_eq_none {ev : Event} (h : Step job s s' ev) : s.result = none := by
  cases h <;> assumption

theorem Inv.overCap_eq_false (hs : job.Inv s) (hr : s.result = none) : job.overCap = false := by
  cases hc : job.overCap with
  | false => rfl
  | true =>
    rw [hs.capped hc] at hr
    simp [start, hc] at hr

theorem step_inv {ev : Event} (h : step job s ev = some s') (hs : job.Inv s) : job.Inv s' := by
  have hstep := step_cases h
  have hcap := hs.overCap_eq_false hstep.result_eq_none
  have hnocap : ∀ P : Prop, job.overCap = true → P := by
    intro P hc
    rw [hcap] at hc
    cases hc
  cases hstep with
  | copy hd hr hl hs' =>
    subst hs'
    refine ⟨JoinLoop.step_accounted hl hs.copies, ?_, hnocap _, ?_⟩
    · intro d hd'
      cases hd.symm.trans hd'
    · intro _ r hr'
      cases hr.symm.trans hr'
  | delete hd hr hl hs' =>
    subst hs'
    obtain ⟨hfin, hstop, hacc⟩ := hs.deletes _ hd
    refine ⟨hs.copies, ?_, hnocap _, ?_⟩
    · intro d' hd'
      obtain rfl := Option.some.inj hd'
      exact ⟨hfin, hstop, JoinLoop.step_accounted hl hacc⟩
    · intro _ r hr'
      cases hr.symm.trans hr'
  | afterCopies hd hr hf hs' =>
    rcases afterCopies_cases job s with ⟨hstop, m, hm⟩ | ⟨hstop, hm⟩
    · -- the run ends here
      rw [hm] at hs'
      subst hs'
      refine ⟨hs.copies, hs.deletes, hnocap _, ?_⟩
      intro _ r hr'
      exact Or.inl ⟨hd, hf, hstop, m, (Option.some.inj hr').symm⟩
    · rw [hm] at hs'
      subst hs'
      refine ⟨hs.copies, ?_, hnocap _, ?_⟩
      · intro d hd'
        obtain rfl := Option.some.inj hd'
        exact ⟨hf, hstop, JoinLoop.accounted_init _ _ _⟩
      · intro _ r hr'
        cases hr.symm.trans hr'
  | afterDeletes hd hr hf hs' =>
    obtain ⟨r', hm, hok⟩ := afterDeletes_cases s _
    rw [hm] at hs'
    subst hs'
    refine ⟨hs.copies, hs.deletes, hnocap _, ?_⟩
    intro _ r hr'
    obtain rfl := Option.some.inj hr'
    exact Or.inr ⟨_, hd, hf, hok⟩

theorem run_inv {es : List Event} (h : Machine.run (step job) job.start es = some s) : job.Inv s :=
  Machine.run_invariant (fun _ _ _ => step_inv) h (inv_start job)

/-! ## What the invariant says -/

/-- The copy loop has stopped iff a stopping result was joined. -/
theorem Inv.copies_stop_iff (hs : job.Inv s) :
    s.copies.acc.stops job.exitOnError = true ↔ ∃ e ∈ s.copies.joined, job.Stopping e.2 := by
  rw [hs.copies.acc_eq]
  exact stops_foldl_iff _ _ (by simp [Tally.stops])

theorem Inv.deletes_stop_iff (hs : job.Inv s) {d : JoinLoop Url OpResult Tally}
    (hd : s.deletes = some d) :
    d.acc.stops job.exitOnError = true ↔ ∃ e ∈ d.joined, job.Stopping e.2 := by
  obtain ⟨-, hstop, hacc⟩ := hs.deletes d hd
  rw [hacc.acc_eq]
  refine stops_foldl_iff _ _ ?_
  simp only [Tally.stops, Bool.or_eq_false_iff] at hstop ⊢
  exact ⟨hstop.1, trivial⟩

/-- Every copy was joined without an error. -/
def AllOk {α : Type} (entries : List (α × OpResult)) : Prop := ∀ e ∈ entries, e.2.isFailed = false

theorem any_isFailed_eq_false_iff {α : Type} {entries : List (α × OpResult)} :
    (entries.any fun e => e.2.isFailed) = false ↔ AllOk entries := by
  simp [AllOk]

theorem any_isFatal_of_allOk {α : Type} {entries : List (α × OpResult)} (h : AllOk entries) :
    (entries.any fun e => e.2.isFatal) = false := by
  rw [List.any_eq_false]
  intro e he hfatal
  have := OpResult.isFailed_of_isFatal hfatal
  rw [h e he] at this
  cases this

/-- The deletions end well iff no operation of either loop failed. -/
theorem Inv.deletes_ok_iff (hs : job.Inv s) {d : JoinLoop Url OpResult Tally}
    (hd : s.deletes = some d) :
    (d.acc.fatalSeen = false ∧ d.acc.hadError = false) ↔ AllOk s.copies.joined ∧ AllOk d.joined := by
  obtain ⟨-, -, hacc⟩ := hs.deletes d hd
  have hcopies : s.copies.acc.hadError = s.copies.joined.any fun e => e.2.isFailed := by
    have h := congrArg Tally.hadError (hs.copies.acc_eq.trans (Tally.foldl_report _ _))
    simpa using h
  rw [hacc.acc_eq]
  show ((d.joined.foldl Tally.report { hadError := s.copies.acc.hadError }).fatalSeen = false ∧ _) ↔ _
  rw [show (job.params Url).report = Tally.report from rfl, Tally.foldl_report, hcopies]
  simp only [Bool.false_or, Bool.or_eq_false_iff, any_isFailed_eq_false_iff]
  constructor
  · rintro ⟨-, hok⟩
    exact hok
  · intro hok
    exact ⟨any_isFatal_of_allOk hok.2, hok⟩

/-- The counts are those of the successful operations. -/
theorem Inv.counts (hs : job.Inv s) :
    s.copies.acc.ok = s.copies.joined.countP (fun e => !e.2.isFailed) ∧
      ∀ d, s.deletes = some d → d.acc.ok = d.joined.countP fun e => !e.2.isFailed := by
  refine ⟨?_, ?_⟩
  · have h := congrArg Tally.ok (hs.copies.acc_eq.trans (Tally.foldl_report _ _))
    simpa using h
  · intro d hd
    obtain ⟨-, -, hacc⟩ := hs.deletes d hd
    have h := congrArg Tally.ok (hacc.acc_eq.trans (Tally.foldl_report _ _))
    simpa using h

/-! ## Termination -/

/-- The steps that are left at most. -/
def remaining (job : SyncJob) (s : State) : Nat :=
  match s.result, s.deletes with
  | some _, _ => 0
  | none, some d => d.remaining + 1
  | none, none => s.copies.remaining + 2 * job.toDelete.length + 2

theorem step_remaining {ev : Event} (h : step job s ev = some s') :
    job.remaining s' < job.remaining s := by
  have hstep := step_cases h
  have hnone := hstep.result_eq_none
  cases hstep with
  | copy hd hr hl hs' =>
    have hlt := JoinLoop.step_remaining hl
    subst hs'
    simp only [remaining, hd, hr]
    omega
  | delete hd hr hl hs' =>
    have hlt := JoinLoop.step_remaining hl
    subst hs'
    simp only [remaining, hd, hr]
    omega
  | afterCopies hd hr hf hs' =>
    rcases afterCopies_cases job s with ⟨-, m, hm⟩ | ⟨-, hm⟩
    · rw [hs', hm]
      simp only [remaining, hd, hr]
      omega
    · rw [hs', hm]
      simp only [remaining, JoinLoop.remaining, hd, hr, List.length_nil]
      omega
  | afterDeletes hd hr hf hs' =>
    obtain ⟨r, hm, -⟩ := afterDeletes_cases s _
    rw [hs', hm]
    simp only [remaining, hd, hr]
    omega

/-- A run without a result can go on. -/
theorem exists_step (job : SyncJob) {s : State} (hr : s.result = none) :
    ∃ ev s', step job s ev = some s' := by
  have hworkers : ∀ α, 0 < (job.params α).workers := fun α => Nat.lt_of_lt_of_le Nat.one_pos
    (Nat.le_max_right job.numworkers 1)
  cases hd : s.deletes with
  | none =>
    by_cases hf : JoinLoop.Finished (job.params (Url × Url)) s.copies
    · exact ⟨.advance, job.afterCopies s, by simp [step, hd, hr, hf]⟩
    · obtain ⟨e, l, hl, -⟩ := JoinLoop.exists_step (hworkers _) hf fun _ => .ok ()
      exact ⟨.copy e, { s with copies := l }, by simp [step, hd, hr, hl]⟩
  | some d =>
    by_cases hf : JoinLoop.Finished (job.params Url) d
    · exact ⟨.advance, afterDeletes s d, by simp [step, hd, hr, hf]⟩
    · obtain ⟨e, l, hl, -⟩ := JoinLoop.exists_step (hworkers _) hf fun _ => .ok ()
      exact ⟨.delete e, { s with deletes := some l }, by simp [step, hd, hr, hl]⟩

/-- A step of a loop that joins only successes keeps what it has joined free of
failures. -/
theorem AllOk.step {α : Type} {P : JoinLoop.Params α OpResult Tally}
    {l l' : JoinLoop α OpResult Tally} {e : JoinLoop.Event OpResult} (hl : AllOk l.joined)
    (h : JoinLoop.step P l e = some l') (he : ∀ i r, e = .join i r → r = .ok ()) :
    AllOk l'.joined := by
  obtain ⟨a, -, -, -, -, hl'⟩ | ⟨i, a, r, rfl, -, -, rfl⟩ := JoinLoop.step_cases h
  · rw [hl']
    exact hl
  · intro entry hentry
    rcases List.mem_append.mp hentry with hentry | hentry
    · exact hl entry hentry
    · rw [List.mem_singleton.mp hentry, he i r rfl]
      rfl

/-- **A run without failures**: if every operation succeeds, the run ends with
success. -/
theorem exists_clean_run (job : SyncJob) (hcap : job.overCap = false) :
    ∃ es s, Machine.run (step job) job.start es = some s ∧ s.result = some (.ok ()) := by
  have hworkers : ∀ α, 0 < (job.params α).workers := fun α => Nat.lt_of_lt_of_le Nat.one_pos
    (Nat.le_max_right job.numworkers 1)
  have hstep : ∀ s, (job.Inv s ∧ AllOk s.copies.joined ∧ ∀ d, s.deletes = some d → AllOk d.joined) →
      ¬ (s.result.isSome = true) → ∃ ev s', step job s ev = some s' ∧
        (job.Inv s' ∧ AllOk s'.copies.joined ∧ ∀ d, s'.deletes = some d → AllOk d.joined) ∧
        job.remaining s' < job.remaining s := by
    rintro s ⟨hs, hcopies, hdeletes⟩ hnone
    have hr : s.result = none := by simpa using hnone
    cases hd : s.deletes with
    | none =>
      by_cases hf : JoinLoop.Finished (job.params (Url × Url)) s.copies
      · have hadv : step job s .advance = some (job.afterCopies s) := by simp [step, hd, hr, hf]
        refine ⟨.advance, _, hadv, ⟨step_inv hadv hs, ?_⟩, step_remaining hadv⟩
        rcases afterCopies_cases job s with ⟨-, m, hm⟩ | ⟨-, hm⟩
        · rw [hm]
          exact ⟨hcopies, hdeletes⟩
        · rw [hm]
          refine ⟨hcopies, fun d hd' => ?_⟩
          obtain rfl := Option.some.inj hd'
          intro e he
          cases he
      · obtain ⟨e, l, hl, hres⟩ := JoinLoop.exists_step (hworkers _) hf fun _ => .ok ()
        have hcopy : step job s (.copy e) = some { s with copies := l } := by
          simp [step, hd, hr, hl]
        refine ⟨.copy e, _, hcopy, ⟨step_inv hcopy hs, ?_, hdeletes⟩, step_remaining hcopy⟩
        exact hcopies.step hl fun i r hjoin => (hres i r hjoin).choose_spec.2
    | some d =>
      by_cases hf : JoinLoop.Finished (job.params Url) d
      · have hadv : step job s .advance = some (afterDeletes s d) := by simp [step, hd, hr, hf]
        refine ⟨.advance, _, hadv, ⟨step_inv hadv hs, ?_⟩, step_remaining hadv⟩
        obtain ⟨r, hm, -⟩ := afterDeletes_cases s d
        rw [hm]
        exact ⟨hcopies, hdeletes⟩
      · obtain ⟨e, l, hl, hres⟩ := JoinLoop.exists_step (hworkers _) hf fun _ => .ok ()
        have hdel : step job s (.delete e) = some { s with deletes := some l } := by
          simp [step, hd, hr, hl]
        refine ⟨.delete e, _, hdel, ⟨step_inv hdel hs, hcopies, ?_⟩, step_remaining hdel⟩
        intro d' hd'
        obtain rfl := Option.some.inj hd'
        exact (hdeletes d hd).step hl fun i r hjoin => (hres i r hjoin).choose_spec.2
  have hstart : AllOk job.start.copies.joined ∧ ∀ d, job.start.deletes = some d → AllOk d.joined := by
    constructor
    · intro e he
      cases he
    · intro d hd
      cases hd
  obtain ⟨es, s, hrun, ⟨hs, hcopies, hdeletes⟩, hfinal⟩ := Machine.exists_run_final job.remaining
    hstep job.start ⟨inv_start job, hstart⟩
  refine ⟨es, s, hrun, ?_⟩
  obtain ⟨r, hr⟩ := Option.isSome_iff_exists.mp hfinal
  rcases hs.result hcap r hr with ⟨-, -, hstop, -⟩ | ⟨d, hd, -, hok⟩
  · -- nothing that was joined can have stopped the copies
    obtain ⟨e, he, hstopping⟩ := hs.copies_stop_iff.mp hstop
    have hfine := hcopies e he
    rcases hstopping with hfatal | ⟨-, hfailed⟩
    · rw [OpResult.isFailed_of_isFatal hfatal] at hfine
      cases hfine
    · rw [hfailed] at hfine
      cases hfine
  · rw [hr, hok.mpr ((hs.deletes_ok_iff hd).mpr ⟨hcopies, hdeletes d hd⟩)]

/-! ## The executor's contract -/

/-- Each of `items` spawned so far is in flight or has been joined, once. -/
def HandledOnce {α : Type} (items : List α) (l : JoinLoop α OpResult Tally) : Prop :=
  ∃ spawned, items = spawned ++ l.todo ∧ (l.inFlight ++ l.joined.map Prod.fst).Perm spawned

/-- Nothing that stops a loop has been joined. -/
def NoStop {α : Type} (job : SyncJob) (l : JoinLoop α OpResult Tally) : Prop :=
  ∀ e ∈ l.joined, ¬ job.Stopping e.2

/-- What holds after the events `es` of a run have led to the state `s`. -/
structure Contract (job : SyncJob) (es : List Event) (s : State) : Prop where
  copies_bounded : s.copies.inFlight.length ≤ job.workers
  deletes_bounded : ∀ d, s.deletes = some d → d.inFlight.length ≤ job.workers
  copies_once : HandledOnce job.toCopy s.copies
  deletes_once : ∀ d, s.deletes = some d → HandledOnce job.toDelete d
  /-- No deletion starts before every spawned copy has been joined. -/
  copies_first : Machine.Along (step job)
    (fun s ev => ev = .delete .spawn → s.copies.inFlight = []) job.start es
  /-- After a stopping copy nothing is deleted and the run fails. -/
  stopped : (∃ e ∈ s.copies.joined, job.Stopping e.2) →
    s.deletes = none ∧ ∀ r, s.result = some r → ∃ m, r = .error m
  /-- No copy is spawned after a stopping copy, no deletion after a stopping one. -/
  no_copy_after_stop : Machine.Along (step job)
    (fun s ev => ev = .copy .spawn → job.NoStop s.copies) job.start es
  no_delete_after_stop : Machine.Along (step job)
    (fun s ev => ev = .delete .spawn → ∀ d, s.deletes = some d → job.NoStop d) job.start es
  /-- If nothing stops the run, its end has every operation executed once. -/
  complete : job.overCap = false → s.result.isSome = true → job.NoStop s.copies →
    (∀ d, s.deletes = some d → job.NoStop d) →
    (s.copies.joined.map Prod.fst).Perm job.toCopy ∧
      ∃ d, s.deletes = some d ∧ (d.joined.map Prod.fst).Perm job.toDelete
  /-- Over the cap nothing is executed and the run fails. -/
  capped : job.overCap = true → s.copies.inFlight = [] ∧ s.copies.joined = [] ∧ s.deletes = none ∧
    s.result = some (.error job.capMessage)
  /-- The run succeeds iff every operation did. -/
  status : job.overCap = false → ∀ r, s.result = some r →
    (r = .ok () ↔ AllOk s.copies.joined ∧ ∀ d, s.deletes = some d → AllOk d.joined)
  copied : s.copies.acc.ok = s.copies.joined.countP fun e => !e.2.isFailed
  deleted : ∀ d, s.deletes = some d → d.acc.ok = d.joined.countP fun e => !e.2.isFailed
  /-- The run ends: its steps are bounded, and it goes on until it has a result. -/
  bounded : es.length ≤ 2 * job.toCopy.length + 2 * job.toDelete.length + 2
  progress : s.result = none → ∃ ev s', step job s ev = some s'

theorem spawn_of_step {α : Type} {P : JoinLoop.Params α OpResult Tally}
    {l l' : JoinLoop α OpResult Tally} (h : JoinLoop.step P l .spawn = some l') :
    P.stop l.acc = false := by
  obtain ⟨a, -, -, hstop, -⟩ | ⟨i, a, r, hev, -⟩ := JoinLoop.step_cases h
  · exact hstop
  · cases hev

theorem Inv.noStop_copies (hs : job.Inv s) (h : s.copies.acc.stops job.exitOnError = false) :
    job.NoStop s.copies := by
  intro e he hstop
  have := hs.copies_stop_iff.mpr ⟨e, he, hstop⟩
  rw [h] at this
  cases this

theorem Inv.noStop_deletes (hs : job.Inv s) {d : JoinLoop Url OpResult Tally}
    (hd : s.deletes = some d) (h : d.acc.stops job.exitOnError = false) : job.NoStop d := by
  intro e he hstop
  have := (hs.deletes_stop_iff hd).mpr ⟨e, he, hstop⟩
  rw [h] at this
  cases this

theorem NoStop.stops_eq_false (hs : job.Inv s) (h : job.NoStop s.copies) :
    s.copies.acc.stops job.exitOnError = false := by
  by_contra hstop
  obtain ⟨e, he, hst⟩ := hs.copies_stop_iff.mp (by simpa using hstop)
  exact h e he hst

theorem NoStop.deletes_stops_eq_false (hs : job.Inv s) {d : JoinLoop Url OpResult Tally}
    (hd : s.deletes = some d) (h : job.NoStop d) : d.acc.stops job.exitOnError = false := by
  by_contra hstop
  obtain ⟨e, he, hst⟩ := (hs.deletes_stop_iff hd).mp (by simpa using hstop)
  exact h e he hst

/-- A step of one of the two loops, under the invariant. -/
theorem Inv.spawn_copy (hs : job.Inv s) (h : step job s (.copy .spawn) = some s') :
    job.NoStop s.copies := by
  cases step_cases h with
  | copy hd hr hl hs' => exact hs.noStop_copies (spawn_of_step hl)

theorem Inv.spawn_delete (hs : job.Inv s) (h : step job s (.delete .spawn) = some s') :
    s.copies.inFlight = [] ∧ ∀ d, s.deletes = some d → job.NoStop d := by
  cases step_cases h with
  | delete hd hr hl hs' =>
    refine ⟨(hs.deletes _ hd).1.1, ?_⟩
    intro d' hd'
    obtain rfl := Option.some.inj (hd.symm.trans hd')
    exact hs.noStop_deletes hd (spawn_of_step hl)

/-- A stopping copy keeps the second loop from being begun. -/
theorem Inv.stopped (hs : job.Inv s) (h : ∃ e ∈ s.copies.joined, job.Stopping e.2) :
    s.deletes = none ∧ ∀ r, s.result = some r → ∃ m, r = .error m := by
  have hstop := hs.copies_stop_iff.mpr h
  have hnone : s.deletes = none := by
    cases hd : s.deletes with
    | none => rfl
    | some d =>
      have := (hs.deletes d hd).2.1
      rw [hstop] at this
      cases this
  refine ⟨hnone, ?_⟩
  intro r hr
  cases hcap : job.overCap with
  | true =>
    rw [hs.capped hcap] at hr
    refine ⟨job.capMessage, ?_⟩
    simpa [start, hcap] using hr.symm
  | false =>
    rcases hs.result hcap r hr with ⟨-, -, -, hm⟩ | ⟨d, hd, -⟩
    · exact hm
    · cases hnone.symm.trans hd

/-- At the end of a run that nothing stopped, both loops have run to their ends. -/
theorem Inv.complete (hs : job.Inv s) (hcap : job.overCap = false) (hr : s.result.isSome = true)
    (hcopies : job.NoStop s.copies) (hdeletes : ∀ d, s.deletes = some d → job.NoStop d) :
    (s.copies.joined.map Prod.fst).Perm job.toCopy ∧
      ∃ d, s.deletes = some d ∧ (d.joined.map Prod.fst).Perm job.toDelete := by
  obtain ⟨r, hr⟩ := Option.isSome_iff_exists.mp hr
  have hstop := NoStop.stops_eq_false hs hcopies
  rcases hs.result hcap r hr with ⟨-, -, hstopped, -⟩ | ⟨d, hd, hfin, -⟩
  · rw [hstop] at hstopped
    cases hstopped
  · obtain ⟨hfinc, -, hacc⟩ := hs.deletes d hd
    refine ⟨hs.copies.perm_of_finished hfinc hstop, d, hd, ?_⟩
    exact hacc.perm_of_finished hfin (NoStop.deletes_stops_eq_false hs hd (hdeletes d hd))

/-- The result is `Ok` iff every operation that was executed succeeded. -/
theorem Inv.status (hs : job.Inv s) (hcap : job.overCap = false) {r : Except Str Unit}
    (hr : s.result = some r) :
    r = .ok () ↔ AllOk s.copies.joined ∧ ∀ d, s.deletes = some d → AllOk d.joined := by
  rcases hs.result hcap r hr with ⟨-, -, hstop, m, rfl⟩ | ⟨d, hd, -, hok⟩
  · -- the copy loop was stopped by a failure
    obtain ⟨e, he, hstopping⟩ := hs.copies_stop_iff.mp hstop
    have hfailed : e.2.isFailed = true := by
      rcases hstopping with hfatal | ⟨-, hfailed⟩
      · exact OpResult.isFailed_of_isFatal hfatal
      · exact hfailed
    constructor
    · intro h
      cases h
    · rintro ⟨hall, -⟩
      have := hall e he
      rw [hfailed] at this
      cases this
  · rw [hok, hs.deletes_ok_iff hd]
    refine and_congr_right' ?_
    constructor
    · intro hall d' hd'
      obtain rfl := Option.some.inj (hd.symm.trans hd')
      exact hall
    · intro hall
      exact hall d hd

/-- **The sync executor keeps its contract**, in every run. -/
theorem sync_executor_contract (job : SyncJob) (es : List Event) (s : State)
    (h : Machine.run (step job) job.start es = some s) : job.Contract es s := by
  have hs := run_inv h
  have halong : ∀ {C : State → Event → Prop},
      (∀ s ev s', step job s ev = some s' → job.Inv s → C s ev) →
        Machine.Along (step job) C job.start es := fun hC =>
    Machine.along_of_invariant (fun _ _ _ => step_inv) hC h (inv_start job)
  have hlen := Machine.length_add_le (fun _ _ _ => step_remaining) h
  refine
    { copies_bounded := hs.copies.bounded
      deletes_bounded := fun d hd => (hs.deletes d hd).2.2.bounded
      copies_once := hs.copies.split
      deletes_once := fun d hd => (hs.deletes d hd).2.2.split
      copies_first := halong ?_
      stopped := hs.stopped
      no_copy_after_stop := halong ?_
      no_delete_after_stop := halong ?_
      complete := hs.complete
      capped := ?_
      status := fun hcap r hr => hs.status hcap hr
      copied := hs.counts.1
      deleted := hs.counts.2
      bounded := ?_
      progress := exists_step job }
  · rintro t ev t' ht hinv rfl
    exact (hinv.spawn_delete ht).1
  · rintro t ev t' ht hinv rfl
    exact hinv.spawn_copy ht
  · rintro t ev t' ht hinv rfl
    exact (hinv.spawn_delete ht).2
  · intro hcap
    rw [hs.capped hcap]
    simp [start, hcap]
  · have hstart : job.remaining job.start ≤ 2 * job.toCopy.length + 2 * job.toDelete.length + 2 := by
      cases hcap : job.overCap with
      | true => simp [remaining, start, hcap]
      | false => simp [remaining, start, hcap, JoinLoop.remaining]
    omega

/-- Two copies and a deletion by one worker, the second copy failing. -/
def sample : SyncJob where
  toCopy := [(.ofString "s3://b/x", .ofString "s3://c/x"), (.ofString "s3://b/y", .ofString "s3://c/y")]
  toDelete := [.ofString "s3://c/z"]

def sampleEvents : List Event :=
  [.copy .spawn, .copy (.join 0 (.ok ())), .copy .spawn, .copy (.join 0 (.error .noObjectFound)),
    .advance, .delete .spawn, .delete (.join 0 (.ok ())), .advance]

/-- The failed copy does not keep the deletion from being executed, but the run
fails. -/
theorem sync_executor_contract_sample :
    ∃ s, (Machine.run (step sample) sample.start sampleEvents = some s ∧
        s.result = some (.error failedMessage)) ∧ sample.Contract sampleEvents s := by
  have hrun : ∃ s, Machine.run (step sample) sample.start sampleEvents = some s ∧
      s.result = some (.error failedMessage) := Machine.exists_run_of_any (by decide +kernel)
  obtain ⟨s, hs, hres⟩ := hrun
  exact ⟨s, ⟨hs, hres⟩, sync_executor_contract sample sampleEvents s hs⟩

end SyncJob

end Rs5cmd
