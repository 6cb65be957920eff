import Rs5cmd.Command.CpRun
import Rs5cmd.Fastpath.Threads

/-!
# The fast path's accounting

A caller of `run_transfers` takes a list of outcomes without an error for success.
A thread whose client cannot be built reports that for each of its items; one that
panics reports nothing, its `join` error is dropped, and its items are missing from
the outcomes without a trace. So success stands for "every item was transferred"
just when no thread panics, some thread reports a failed client, or nothing is run.
-/

namespace Rs5cmd.Fastpath

/-- Every item has an outcome of its own that is `Ok`. -/
def EveryItemOk (items : List Transfer) (outcomes : List Outcome) : Prop :=
  (items.map fun item => Outcome.of (item, .ok ())).Subperm outcomes

/-- The outcomes are those of the items, one for each. -/
def OnePerItem (items : List Transfer) (outcomes : List Outcome) : Prop :=
  ∃ results : List (Transfer × Except Str Unit),
    (results.map Prod.fst).Perm items ∧ outcomes.Perm (results.map Outcome.of)

/-- What a caller relies on, for threads with the given fates. -/
structure Accounts (cfg : FastConfig) (fates : Nat → Fate) (items : List Transfer) : Prop where
  success : ∀ outcomes, RunTransfers cfg fates items outcomes →
    fastStatus (hadError outcomes) = .ok () → EveryItemOk items outcomes
  onePerItem : (∀ c < cfg.threadCount items, fates c = .runs) →
    ∀ outcomes, RunTransfers cfg fates items outcomes → OnePerItem items outcomes
  bounded : ∀ es, Machine.Always (Fleet.step (work cfg.perCoreConcurrency))
    (fun f => ∀ t ∈ f.members, t.inFlight.length ≤ max cfg.perCoreConcurrency 1)
    { members := spawned cfg fates items } es

/-! ## The shards -/

theorem length_shards {α : Type} (n : Nat) (items : List α) : (shards n items).length = n := by
  rw [shards, List.length_map, List.length_range]

theorem shards_ne_nil {α : Type} {n c : Nat} {items shard : List α} (hn : n ≤ items.length)
    (h : (shard, c) ∈ (shards n items).zipIdx) : shard ≠ [] := by
  have hc : c < n := by
    have hlt := (List.mem_zipIdx h).2.1
    rw [length_shards] at hlt
    omega
  have hitem : (items[c], c) ∈ items.zipIdx := by
    rw [List.mk_mem_zipIdx_iff_getElem?]
    exact List.getElem?_eq_getElem (Nat.lt_of_lt_of_le hc hn)
  have hshard : items[c] ∈ shard := by
    rw [List.mk_mem_zipIdx_iff_getElem?, shards, List.getElem?_map, List.getElem?_range hc] at h
    rw [← Option.some.inj h]
    refine List.mem_map_of_mem (f := Prod.fst) (List.mem_filter.mpr ⟨hitem, ?_⟩)
    exact decide_eq_true (Nat.mod_eq_of_lt hc)
  exact List.ne_nil_of_mem hshard

section Runs

variable {cfg : FastConfig} {fates : Nat → Fate} {items : List Transfer}

theorem mem_zipIdx_shards {e : List Transfer × Nat}
    (h : e ∈ (shards (cfg.threadCount items) items).zipIdx) : e.2 < cfg.threadCount items := by
  have hlt := (List.mem_zipIdx h).2.1
  rw [length_shards] at hlt
  omega

theorem exists_shard {c : Nat} (hc : c < cfg.threadCount items) :
    ∃ shard, (shard, c) ∈ (shards (cfg.threadCount items) items).zipIdx := by
  have hlt : c < (shards (cfg.threadCount items) items).length := by rwa [length_shards]
  exact ⟨_, List.mk_mem_zipIdx_iff_getElem?.mpr (List.getElem?_eq_getElem hlt)⟩

theorem flatten_threadCount_perm (cfg : FastConfig) (items : List Transfer) :
    (shards (cfg.threadCount items) items).flatten.Perm items := by
  cases hitems : items with
  | nil => exact List.Perm.of_eq (by simp [shards, FastConfig.threadCount])
  | cons item rest =>
    refine flatten_shards_perm ?_ _
    rw [FastConfig.threadCount, List.length_cons]
    omega

/-! ## Whole runs -/

/-- What each thread has sent when all are gone. -/
theorem exists_logs {es : List (Nat × Act)} {f : Fleet ShardThread Outcome}
    (hrun : Machine.run (Fleet.step (work cfg.perCoreConcurrency))
      { members := spawned cfg fates items } es = some f)
    (hover : ∀ t ∈ f.members, t.Over) :
    ∃ ends, List.Forall₂ (fun e r => Reached cfg.perCoreConcurrency (fates e.2) e.1 r.1 r.2 ∧ r.2.Over)
        (shards (cfg.threadCount items) items).zipIdx ends ∧
      f.sent.Perm (ends.map Prod.fst).flatten := by
  obtain ⟨ends, hruns, hmembers, hsent⟩ := Fleet.run_interleaved hrun
  refine ⟨ends, ?_, hsent⟩
  rw [spawned, List.forall₂_map_left_iff] at hruns
  have hends : ∀ r ∈ ends, r.2.Over := by
    intro r hr
    apply hover
    rw [hmembers]
    exact List.mem_map_of_mem hr
  refine List.Forall₂.imp ?_ ((List.forall₂_and_left _ _).mpr ⟨hends, hruns.flip⟩).flip
  intro e r h
  exact ⟨reached_of_sends h.2, h.1⟩

/-- Threads that all run their shards refine `FastRun`. -/
theorem fastRun_of_ran {es : List (Nat × Act)} {f : Fleet ShardThread Outcome}
    (hrun : Machine.run (Fleet.step (work cfg.perCoreConcurrency))
      { members := spawned cfg fates items } es = some f)
    (hover : ∀ t ∈ f.members, t.Over) (hfates : ∀ c < cfg.threadCount items, fates c = .runs) :
    ∃ results : List (Transfer × Except Str Unit),
      FastRun cfg.cores cfg.perCoreConcurrency items results ∧
        f.sent.Perm (results.map Outcome.of) := by
  obtain ⟨ends, hends, hsent⟩ := exists_logs hrun hover
  have hall : ∀ {shards : List (List Transfer × Nat)} {ends : List (List Outcome × ShardThread)},
      List.Forall₂ (fun e r => fates e.2 = .runs ∧
        Reached cfg.perCoreConcurrency (fates e.2) e.1 r.1 r.2 ∧ r.2.Over) shards ends →
      ∃ logs, List.Forall₂ (ShardRun cfg.perCoreConcurrency) (shards.map Prod.fst) logs ∧
        (ends.map Prod.fst).flatten = logs.flatten.map Outcome.of := by
    intro shards ends h
    induction h with
    | nil => exact ⟨[], List.Forall₂.nil, rfl⟩
    | @cons e r _ _ her _ ih =>
      obtain ⟨logs, hlogs, hflat⟩ := ih
      obtain ⟨log, t⟩ := r
      obtain ⟨hfate, hreached, hgone⟩ := her
      cases hreached with
      | @ran results _ hshard =>
        refine ⟨results :: logs, List.Forall₂.cons hshard hlogs, ?_⟩
        show results.map Outcome.of ++ _ = (results ++ logs.flatten).map Outcome.of
        rw [hflat, List.map_append]
      | reported hno =>
        rw [hfate] at hno
        cases hno
      | panicked hno =>
        rw [hfate] at hno
        cases hno
      | _ => exact hgone.elim
  have hruns : ∀ e ∈ (shards (cfg.threadCount items) items).zipIdx, fates e.2 = .runs :=
    fun e he => hfates e.2 (mem_zipIdx_shards he)
  obtain ⟨logs, hlogs, hflat⟩ := hall ((List.forall₂_and_left _ _).mpr ⟨hruns, hends⟩)
  rw [List.zipIdx_map_fst] at hlogs
  refine ⟨logs.flatten, ⟨logs, hlogs, List.Perm.refl _⟩, ?_⟩
  rw [← hflat]
  exact hsent

theorem onePerItem_of_runs (hfates : ∀ c < cfg.threadCount items, fates c = .runs)
    {outcomes : List Outcome} (h : RunTransfers cfg fates items outcomes) :
    OnePerItem items outcomes := by
  cases h with
  | noItems hitems =>
    rw [hitems]
    exact ⟨[], List.Perm.refl _, List.Perm.refl _⟩
  | dryRun hdry =>
    refine ⟨items.map fun item => (item, .ok ()), ?_, ?_⟩
    · rw [List.map_map]
      exact List.Perm.of_eq (List.map_id _)
    · rw [List.map_map]
      exact List.Perm.refl _
  | ran hdry hrun hover =>
    obtain ⟨results, hfast, hsent⟩ := fastRun_of_ran hrun hover hfates
    exact ⟨results, hfast.perm, hsent⟩

/-- One outcome for each item, and no error among them. -/
theorem everyItemOk_of_onePerItem {outcomes : List Outcome} (h : OnePerItem items outcomes)
    (hok : hadError outcomes = false) : EveryItemOk items outcomes := by
  obtain ⟨results, hitems, hperm⟩ := h
  have hresults : ∀ r ∈ results, r = (r.1, .ok ()) := by
    intro r hr
    have hmem : Outcome.of r ∈ outcomes := hperm.mem_iff.mpr (List.mem_map_of_mem hr)
    have hnot : (Outcome.of r).failed = false := by
      by_contra hfail
      have : hadError outcomes = true :=
        List.any_eq_true.mpr ⟨_, hmem, by simpa using hfail⟩
      rw [hok] at this
      cases this
    obtain ⟨item, result⟩ := r
    cases result with
    | ok _ => rfl
    | error e => cases hnot
  have hmap : results.map Outcome.of = (results.map Prod.fst).map fun item => Outcome.of (item, .ok ()) := by
    rw [List.map_map]
    refine List.map_congr_left fun r hr => ?_
    rw [hresults r hr]
    rfl
  rw [hmap] at hperm
  exact ((hitems.symm.map _).trans hperm.symm).subperm

/-- A client that cannot be built is an error of the run. -/
theorem hadError_of_noClient {c : Nat} {msg : Str} (hc : c < cfg.threadCount items)
    (hfate : fates c = .noClient msg) {es : List (Nat × Act)} {f : Fleet ShardThread Outcome}
    (hrun : Machine.run (Fleet.step (work cfg.perCoreConcurrency))
      { members := spawned cfg fates items } es = some f)
    (hover : ∀ t ∈ f.members, t.Over) : hadError f.sent = true := by
  obtain ⟨ends, hends, hsent⟩ := exists_logs hrun hover
  obtain ⟨shard, hshard⟩ := exists_shard hc
  obtain ⟨r, hr, hreached, hgone⟩ := Fleet.exists_of_forall₂_of_mem hends hshard
  obtain ⟨log, t⟩ := r
  have herror : ∃ o ∈ log, o.failed = true := by
    cases hreached with
    | @reported msg' _ =>
      refine ⟨Outcome.clientInit msg', ?_, rfl⟩
      rw [List.mem_replicate]
      exact ⟨by omega, rfl⟩
    | ran hno _ =>
      rw [show fates c = .runs from hno] at hfate
      cases hfate
    | panicked hno =>
      rw [show fates c = .panics from hno] at hfate
      cases hfate
    | _ => exact hgone.elim
  obtain ⟨o, ho, hfailed⟩ := herror
  refine List.any_eq_true.mpr ⟨o, ?_, hfailed⟩
  rw [hsent.mem_iff, List.mem_flatten]
  exact ⟨log, List.mem_map_of_mem hr, ho⟩

/-! ## A run that loses items -/

/-- Logs that are no longer than their shards, and shorter where `D` holds. -/
theorem length_flatten_add_countP {D : List Transfer × Nat → Prop} [DecidablePred D]
    {shards : List (List Transfer × Nat)} {ends : List (List Outcome × ShardThread)}
    (h : List.Forall₂ (fun e r => r.1.length + (if D e then 1 else 0) ≤ e.1.length) shards ends) :
    (ends.map Prod.fst).flatten.length + shards.countP (fun e => D e) ≤
      (shards.map Prod.fst).flatten.length := by
  induction h with
  | nil => simp
  | @cons e r shards ends her _ ih =>
    rw [List.map_cons, List.map_cons, List.flatten_cons, List.flatten_cons, List.length_append,
      List.length_append, List.countP_cons]
    simp only [decide_eq_true_eq]
    omega

/-- Without a failed client there is a run in which the threads that are to panic do
so at once and the others succeed. -/
theorem exists_silent_run (hdry : cfg.dryRun = false)
    (hclients : ∀ c < cfg.threadCount items, ∀ msg, fates c ≠ .noClient msg)
    (hpanic : ∃ c < cfg.threadCount items, fates c = .panics) :
    ∃ outcomes, RunTransfers cfg fates items outcomes ∧ hadError outcomes = false ∧
      outcomes.length < items.length := by
  have hone : ∀ e ∈ (shards (cfg.threadCount items) items).zipIdx,
      ∃ r : List Outcome × ShardThread,
        Fleet.Sends (work cfg.perCoreConcurrency) ⟨fates e.2, .starting e.1⟩ r.1 r.2 ∧ r.2.Over ∧
          (∀ o ∈ r.1, o.failed = false) ∧
            r.1.length + (if fates e.2 = .panics then 1 else 0) ≤ e.1.length := by
    intro e he
    have hclient := hclients e.2 (mem_zipIdx_shards he)
    cases hfate : fates e.2 with
    | noClient msg => exact absurd hfate (hclient msg)
    | panics =>
      refine ⟨([], ⟨.panics, .panicked⟩), sends_panics, trivial, ?_, ?_⟩
      · intro o ho
        cases ho
      · exact List.length_pos_iff.mpr (shards_ne_nil (Nat.min_le_right _ _) he)
    | runs =>
      obtain ⟨results, hperm, hok, hsends⟩ := @sends_all_ok cfg.perCoreConcurrency e.1
      refine ⟨(results.map Outcome.of, ⟨.runs, .ended⟩), hsends, trivial, ?_, ?_⟩
      · intro o ho
        obtain ⟨r, hr, rfl⟩ := List.mem_map.mp ho
        have hr' : r = (r.1, .ok ()) := Prod.ext rfl (hok r hr)
        rw [hr']
        rfl
      · show (results.map Outcome.of).length + 0 ≤ e.1.length
        rw [List.length_map, ← hperm.length_eq, List.length_map]
        omega
  obtain ⟨ends, hends⟩ := Fleet.exists_forall₂ hone
  have hsends : List.Forall₂ (fun s r => Fleet.Sends (work cfg.perCoreConcurrency) s r.1 r.2)
      (spawned cfg fates items) ends := by
    rw [spawned, List.forall₂_map_left_iff]
    exact hends.imp fun e r h => h.1
  obtain ⟨es, hrun⟩ := Fleet.exists_run hsends
  have hmem : ∀ r ∈ ends, r.2.Over ∧ ∀ o ∈ r.1, o.failed = false := by
    intro r hr
    obtain ⟨e, -, h⟩ := Fleet.exists_of_forall₂_of_mem hends.flip hr
    exact ⟨h.2.1, h.2.2.1⟩
  refine ⟨(ends.map Prod.fst).flatten, RunTransfers.ran hdry hrun ?_, ?_, ?_⟩
  · intro t ht
    obtain ⟨r, hr, rfl⟩ := List.mem_map.mp ht
    exact (hmem r hr).1
  · rw [hadError, List.any_eq_false]
    intro o ho
    obtain ⟨log, hlog, holog⟩ := List.mem_flatten.mp ho
    obtain ⟨r, hr, rfl⟩ := List.mem_map.mp hlog
    rw [(hmem r hr).2 o holog]
    exact Bool.false_ne_true
  · have hcount := length_flatten_add_countP (D := fun e : List Transfer × Nat => fates e.2 = .panics)
      (hends.imp fun e r h => h.2.2.2)
    obtain ⟨c, hc, hfate⟩ := hpanic
    obtain ⟨shard, hshard⟩ := exists_shard hc
    have hpos : 0 < (shards (cfg.threadCount items) items).zipIdx.countP fun e => fates e.2 = .panics :=
      List.countP_pos_iff.mpr ⟨_, hshard, decide_eq_true hfate⟩
    rw [List.zipIdx_map_fst, (flatten_threadCount_perm cfg items).length_eq] at hcount
    omega

theorem bounded_always (cfg : FastConfig) (fates : Nat → Fate) (items : List Transfer)
    (es : List (Nat × Act)) :
    Machine.Always (Fleet.step (work cfg.perCoreConcurrency))
      (fun f => ∀ t ∈ f.members, t.inFlight.length ≤ max cfg.perCoreConcurrency 1)
      { members := spawned cfg fates items } es := by
  have hreached : Machine.Always (Fleet.step (work cfg.perCoreConcurrency))
      (fun f => ∀ t ∈ f.members, ∃ fate shard log, Reached cfg.perCoreConcurrency fate shard log t)
      { members := spawned cfg fates items } es := by
    refine Fleet.run_forall ?_ ?_ es
    · rintro t a t' out h ⟨fate, shard, log, ht⟩
      exact ⟨fate, shard, log ++ out, work_reached log t a t' out h ht⟩
    · intro t ht
      obtain ⟨e, -, rfl⟩ := List.mem_map.mp ht
      exact ⟨fates e.2, e.1, [], Reached.starting⟩
  refine hreached.imp fun f hf t ht => ?_
  obtain ⟨fate, shard, log, h⟩ := hf t ht
  exact h.bounded

end Runs

/-! ## The accounting -/

theorem fastStatus_ok_iff {outcomes : List Outcome} :
    fastStatus (hadError outcomes) = .ok () ↔ hadError outcomes = false := by
  cases hadError outcomes with
  | false => exact ⟨fun _ => rfl, fun _ => rfl⟩
  | true => simp [fastStatus]

/-- **Success of the fast path means that every item was transferred, unless a thread
panics unnoticed.** -/
theorem accounts_iff (cfg : FastConfig) (fates : Nat → Fate) (items : List Transfer) :
    Accounts cfg fates items ↔
      cfg.dryRun = true ∨ (∃ c < cfg.threadCount items, ∃ msg, fates c = .noClient msg) ∨
        ∀ c < cfg.threadCount items, fates c ≠ .panics := by
  constructor
  · intro h
    by_contra hno
    obtain ⟨hdry, hrest⟩ := not_or.mp hno
    obtain ⟨hclients, hpanics⟩ := not_or.mp hrest
    push Not at hclients hpanics
    obtain ⟨outcomes, hrun, hok, hlen⟩ :=
      exists_silent_run (Bool.eq_false_iff.mpr hdry) hclients hpanics
    have hevery := (h.success outcomes hrun (fastStatus_ok_iff.mpr hok)).length_le
    rw [List.length_map] at hevery
    omega
  · intro h
    refine ⟨?_, fun hfates outcomes hrun => onePerItem_of_runs hfates hrun, bounded_always cfg fates items⟩
    intro outcomes hrun hstatus
    have hok := fastStatus_ok_iff.mp hstatus
    cases hrun with
    | noItems hitems => exact everyItemOk_of_onePerItem ⟨[], by rw [hitems]; exact ⟨.refl _, .refl _⟩⟩ hok
    | dryRun hdry => exact (List.Perm.refl _).subperm
    | @ran es f hdry hrun hover =>
      have hruns : ∀ c < cfg.threadCount items, fates c = .runs := by
        intro c hc
        cases hfate : fates c with
        | runs => rfl
        | noClient msg =>
          rw [hadError_of_noClient hc hfate hrun hover] at hok
          cases hok
        | panics =>
          rcases h with hdry' | ⟨c', hc', msg, hmsg⟩ | hnone
          · rw [hdry] at hdry'
            cases hdry'
          · rw [hadError_of_noClient hc' hmsg hrun hover] at hok
            cases hok
          · exact absurd hfate (hnone c hc)
      exact everyItemOk_of_onePerItem (onePerItem_of_runs hruns (.ran hdry hrun hover)) hok

/-- One upload on one thread, which cannot build its runtime: the list of outcomes is
empty, and that is success. -/
theorem panicked_upload_succeeds :
    RunTransfers { cores := 1, perCoreConcurrency := 1 } (fun _ => .panics)
        [.upload "a".toList "b".toList "k".toList] [] ∧
      fastStatus (hadError []) = .ok () ∧
        ¬ Accounts { cores := 1, perCoreConcurrency := 1 } (fun _ => .panics)
          [.upload "a".toList "b".toList "k".toList] := by
  have hrun : RunTransfers { cores := 1, perCoreConcurrency := 1 } (fun _ => .panics)
      [.upload "a".toList "b".toList "k".toList] [] := by
    refine @RunTransfers.ran _ _ _ [(0, .panic)] ⟨[⟨.panics, .panicked⟩], []⟩ rfl rfl ?_
    intro t ht
    obtain rfl := List.mem_singleton.mp ht
    exact trivial
  refine ⟨hrun, rfl, fun h => ?_⟩
  have hlen := (h.success [] hrun rfl).length_le
  cases hlen

end Rs5cmd.Fastpath
