import Rs5cmd.Lib.Machine
import Mathlib.Data.List.Nodup
import Mathlib.Algebra.Order.BigOperators.Group.List
import Mathlib.Algebra.Order.Ring.Nat

/-!
# Bounded task pools

Tasks with numbers `0, 1, ..` are started in order, at most `limit` of them at a
time, and work on a shared state. A task goes through phases; which task takes
the next step is up to the schedule, so a run of the pool is one interleaving of
the tasks. A finished task leaves its result, in completion order.
-/

/-- A family of tasks over a shared state. -/
structure Tasks (σ φ ρ ε : Type*) where
  count : Nat
  limit : Nat
  start : Nat → φ
  /-- One step of a task: it goes on to another phase or ends with a result. -/
  work : Nat → φ → ε → σ → Option (σ × (φ ⊕ ρ))

/-- The state of a pool. -/
structure Pool (σ φ ρ : Type*) where
  shared : σ
  next : Nat := 0
  inFlight : List (Nat × φ) := []
  results : List (Nat × ρ) := []

inductive Pool.Event (ε : Type*) where
  | start
  | work (i : Nat) (e : ε)
  deriving DecidableEq, Repr

namespace Pool

variable {σ φ ρ ε : Type*}

/-- The tasks in flight other than task `i`. -/
def others (p : Pool σ φ ρ) (i : Nat) : List (Nat × φ) := p.inFlight.filter fun t => t.1 ≠ i

/-- What a step of task `i` leaves. -/
def settle (p : Pool σ φ ρ) (i : Nat) (s : σ) : φ ⊕ ρ → Pool σ φ ρ
  | .inl ph => { p with shared := s, inFlight := (i, ph) :: p.others i }
  | .inr r => { p with shared := s, inFlight := p.others i, results := p.results ++ [(i, r)] }

/-- One event: the next task starts, or a task in flight takes a step. -/
def step (T : Tasks σ φ ρ ε) (p : Pool σ φ ρ) : Event ε → Option (Pool σ φ ρ)
  | .start =>
    if p.next < T.count ∧ p.inFlight.length < T.limit then
      some { p with next := p.next + 1, inFlight := p.inFlight ++ [(p.next, T.start p.next)] }
    else none
  | .work i e =>
    (p.inFlight.lookup i).bind fun ph =>
      (T.work i ph e p.shared).map fun out => p.settle i out.1 out.2

/-- Every task has been started and has ended. -/
def Complete (T : Tasks σ φ ρ ε) (p : Pool σ φ ρ) : Prop := T.count ≤ p.next ∧ p.inFlight = []

instance (T : Tasks σ φ ρ ε) (p : Pool σ φ ρ) : Decidable (Complete T p) :=
  inferInstanceAs (Decidable (_ ∧ p.inFlight = []))

variable {T : Tasks σ φ ρ ε} {p p' : Pool σ φ ρ}

theorem mem_of_lookup {i : Nat} {ph : φ} {l : List (Nat × φ)} (h : l.lookup i = some ph) :
    (i, ph) ∈ l := by
  obtain ⟨a, b, rfl, -⟩ := List.lookup_eq_some_iff.mp h
  exact List.mem_append_right _ List.mem_cons_self

/-- Everything an event can do. -/
theorem step_cases {ev : Event ε} (h : step T p ev = some p') :
    (ev = .start ∧ p.next < T.count ∧ p.inFlight.length < T.limit ∧
      p' = { p with next := p.next + 1, inFlight := p.inFlight ++ [(p.next, T.start p.next)] }) ∨
    (∃ i e ph s out, ev = .work i e ∧ p.inFlight.lookup i = some ph ∧
      T.work i ph e p.shared = some (s, out) ∧ p' = p.settle i s out) := by
  cases ev with
  | start =>
    rw [step] at h
    split at h
    · rename_i hc
      exact .inl ⟨rfl, hc.1, hc.2, (Option.some.inj h).symm⟩
    · cases h
  | work i e =>
    obtain ⟨ph, hph, h⟩ := Option.bind_eq_some_iff.mp h
    obtain ⟨⟨s, out⟩, hw, rfl⟩ := Option.map_eq_some_iff.mp h
    exact .inr ⟨i, e, ph, s, out, rfl, hph, hw, rfl⟩

/-- A run that starts `n` tasks is a run of the first `n`. -/
theorem run_of_next_le {n : Nat} {s p : Pool σ φ ρ} {sched : List (Event ε)}
    (h : Machine.run (step T) s sched = some p) (hn : p.next ≤ n) :
    Machine.run (step { T with count := n }) s sched = some p := by
  refine (Machine.run_of_agree (P := fun p => p.next ≤ n) ?_ ?_ h hn).2
  · intro p ev p' hstep hle
    obtain ⟨-, -, -, rfl⟩ | ⟨i, e, ph, s', out, -, -, -, rfl⟩ := step_cases hstep
    · exact Nat.le_of_succ_le hle
    · cases out <;> exact hle
  · intro p ev p' hstep hle
    obtain ⟨rfl, -, hroom, rfl⟩ | ⟨i, e, ph, s', out, rfl, hph, hwork, rfl⟩ := step_cases hstep
    · exact if_pos ⟨hle, hroom⟩
    · simp only [step, hph, Option.bind_some, hwork, Option.map_some]

/-! ## Numbering -/

/-- The tasks in flight have distinct numbers, all of tasks already started. -/
structure Wf (p : Pool σ φ ρ) : Prop where
  nodup : (p.inFlight.map Prod.fst).Nodup
  lt_next : ∀ t ∈ p.inFlight, t.1 < p.next

theorem wf_init (s : σ) : Wf ({ shared := s } : Pool σ φ ρ) := ⟨by simp, by simp⟩

theorem not_mem_others (p : Pool σ φ ρ) (i : Nat) (ph : φ) : (i, ph) ∉ p.others i := by
  intro h
  simpa using (List.mem_filter.mp h).2

theorem mem_others {i j : Nat} {ph : φ} (hji : j ≠ i) :
    (j, ph) ∈ p.others i ↔ (j, ph) ∈ p.inFlight := by
  simp [others, hji]

theorem Wf.settle (hp : Wf p) {i : Nat} {ph : φ} (hph : (i, ph) ∈ p.inFlight) (s : σ)
    (out : φ ⊕ ρ) : Wf (p.settle i s out) := by
  have hnodup : ((p.others i).map Prod.fst).Nodup :=
    hp.nodup.sublist (List.filter_sublist.map Prod.fst)
  have hlt : ∀ t ∈ p.others i, t.1 < p.next := fun t ht => hp.lt_next t (List.mem_of_mem_filter ht)
  cases out with
  | inl ph' =>
    refine ⟨?_, ?_⟩
    · show (i :: (p.others i).map Prod.fst).Nodup
      refine List.nodup_cons.mpr ⟨?_, hnodup⟩
      intro hmem
      obtain ⟨⟨j, phj⟩, ht, rfl⟩ := List.mem_map.mp hmem
      exact not_mem_others p j phj ht
    · intro t ht
      rcases List.mem_cons.mp ht with rfl | ht
      · exact hp.lt_next (i, ph) hph
      · exact hlt t ht
  | inr r => exact ⟨hnodup, hlt⟩

theorem Wf.start (hp : Wf p) (ph : φ) :
    Wf { p with next := p.next + 1, inFlight := p.inFlight ++ [(p.next, ph)] } := by
  refine ⟨?_, ?_⟩
  · show ((p.inFlight ++ [(p.next, ph)]).map Prod.fst).Nodup
    rw [List.map_append, List.map_singleton]
    refine List.nodup_append.mpr ⟨hp.nodup, by simp, ?_⟩
    intro a ha b hb
    obtain ⟨t, ht, rfl⟩ := List.mem_map.mp ha
    obtain rfl := List.mem_singleton.mp hb
    have := hp.lt_next t ht
    omega
  · intro t ht
    rcases List.mem_append.mp ht with ht | ht
    · exact Nat.lt_succ_of_lt (hp.lt_next t ht)
    · obtain rfl := List.mem_singleton.mp ht
      exact Nat.lt_succ_self _

theorem step_wf {ev : Event ε} (h : step T p ev = some p') (hp : Wf p) : Wf p' := by
  obtain ⟨-, -, -, rfl⟩ | ⟨i, e, ph, s, out, -, hph, -, rfl⟩ := step_cases h
  · exact hp.start _
  · exact hp.settle (mem_of_lookup hph) s out

theorem run_wf {s : σ} {sched : List (Event ε)}
    (h : Machine.run (step T) { shared := s } sched = some p) : Wf p :=
  Machine.run_invariant (fun _ _ _ => step_wf) h (wf_init s)

/-! ## Invariants of all runs -/

section Rule

variable {I : σ → Prop} {Q : Nat → φ → Prop} {R : Nat → ρ → Prop}

/-- The shared state, the phases and the results keep their invariants, and every
task started so far is in flight or has left a result. -/
structure Inv (T : Tasks σ φ ρ ε) (I : σ → Prop) (Q : Nat → φ → Prop) (R : Nat → ρ → Prop)
    (p : Pool σ φ ρ) : Prop where
  shared : I p.shared
  inFlight : ∀ t ∈ p.inFlight, Q t.1 t.2
  results : ∀ t ∈ p.results, t.1 < T.count ∧ R t.1 t.2
  lt_count : ∀ t ∈ p.inFlight, t.1 < T.count
  accounted : ∀ i < p.next, (∃ ph, (i, ph) ∈ p.inFlight) ∨ ∃ r, (i, r) ∈ p.results

theorem inv_init {s : σ} (hs : I s) : Inv T I Q R { shared := s } where
  shared := hs
  inFlight := by simp
  results := by simp
  lt_count := by simp
  accounted := by simp

/-- What each step of a task keeps, the pool keeps. -/
theorem step_inv (hstart : ∀ i < T.count, Q i (T.start i))
    (hphase : ∀ i ph e s s' ph', I s → Q i ph → T.work i ph e s = some (s', .inl ph') →
      I s' ∧ Q i ph')
    (hdone : ∀ i ph e s s' r, I s → Q i ph → T.work i ph e s = some (s', .inr r) → I s' ∧ R i r)
    {ev : Event ε} (h : step T p ev = some p') (hp : Inv T I Q R p) : Inv T I Q R p' := by
  obtain ⟨-, hlt, -, rfl⟩ | ⟨i, e, ph, s, out, -, hph, hw, rfl⟩ := step_cases h
  · -- a task starts
    refine ⟨hp.shared, ?_, hp.results, ?_, ?_⟩
    · intro t ht
      rcases List.mem_append.mp ht with ht | ht
      · exact hp.inFlight t ht
      · obtain rfl := List.mem_singleton.mp ht
        exact hstart _ hlt
    · intro t ht
      rcases List.mem_append.mp ht with ht | ht
      · exact hp.lt_count t ht
      · obtain rfl := List.mem_singleton.mp ht
        exact hlt
    · intro i hi
      rcases Nat.lt_succ_iff_lt_or_eq.mp hi with hi | rfl
      · rcases hp.accounted i hi with ⟨ph, hph⟩ | hr
        · exact .inl ⟨ph, List.mem_append_left _ hph⟩
        · exact .inr hr
      · exact .inl ⟨_, List.mem_append_right _ List.mem_cons_self⟩
  · have hmem := mem_of_lookup hph
    have hothers : ∀ t ∈ p.others i, t ∈ p.inFlight := fun t ht => List.mem_of_mem_filter ht
    have hkept : ∀ j ph, j ≠ i → (j, ph) ∈ p.inFlight → (j, ph) ∈ p.others i := by
      intro j ph hji hj
      exact List.mem_filter.mpr ⟨hj, by simp [hji]⟩
    cases out with
    | inl ph' =>
      obtain ⟨hI, hQ⟩ := hphase i ph e _ s ph' hp.shared (hp.inFlight _ hmem) hw
      refine ⟨hI, ?_, hp.results, ?_, ?_⟩
      · intro t ht
        rcases List.mem_cons.mp ht with rfl | ht
        · exact hQ
        · exact hp.inFlight t (hothers t ht)
      · intro t ht
        rcases List.mem_cons.mp ht with rfl | ht
        · exact hp.lt_count (i, ph) hmem
        · exact hp.lt_count t (hothers t ht)
      · intro j hj
        by_cases hji : j = i
        · subst hji
          exact .inl ⟨ph', List.mem_cons_self⟩
        · rcases hp.accounted j hj with ⟨phj, hphj⟩ | hr
          · exact .inl ⟨phj, List.mem_cons_of_mem _ (hkept j phj hji hphj)⟩
          · exact .inr hr
    | inr r =>
      obtain ⟨hI, hR⟩ := hdone i ph e _ s r hp.shared (hp.inFlight _ hmem) hw
      refine ⟨hI, ?_, ?_, ?_, ?_⟩
      · intro t ht
        exact hp.inFlight t (hothers t ht)
      · intro t ht
        rcases List.mem_append.mp ht with ht | ht
        · exact hp.results t ht
        · obtain rfl := List.mem_singleton.mp ht
          exact ⟨hp.lt_count _ hmem, hR⟩
      · intro t ht
        exact hp.lt_count t (hothers t ht)
      · intro j hj
        by_cases hji : j = i
        · subst hji
          exact .inr ⟨r, List.mem_append_right _ List.mem_cons_self⟩
        · rcases hp.accounted j hj with ⟨phj, hphj⟩ | ⟨rj, hrj⟩
          · exact .inl ⟨phj, hkept j phj hji hphj⟩
          · exact .inr ⟨rj, List.mem_append_left _ hrj⟩

/-- **The pool rule.** What each step of a task keeps holds in every state of
every run. -/
theorem run_inv (hstart : ∀ i < T.count, Q i (T.start i))
    (hphase : ∀ i ph e s s' ph', I s → Q i ph → T.work i ph e s = some (s', .inl ph') →
      I s' ∧ Q i ph')
    (hdone : ∀ i ph e s s' r, I s → Q i ph → T.work i ph e s = some (s', .inr r) → I s' ∧ R i r)
    {s : σ} (hs : I s) {sched : List (Event ε)}
    (h : Machine.run (step T) { shared := s } sched = some p) : Inv T I Q R p :=
  Machine.run_invariant (fun _ _ _ => step_inv hstart hphase hdone) h (inv_init hs)

/-- Results are those of tasks. -/
theorem lt_count_of_mem_results {s : σ} {sched : List (Event ε)}
    (h : Machine.run (step T) { shared := s } sched = some p) {t : Nat × ρ} (ht : t ∈ p.results) :
    t.1 < T.count := by
  have hinv := run_inv (I := fun _ => True) (Q := fun _ _ => True) (R := fun _ _ => True)
    (fun _ _ => trivial) (fun _ _ _ _ _ _ _ _ _ => ⟨trivial, trivial⟩)
    (fun _ _ _ _ _ _ _ _ _ => ⟨trivial, trivial⟩) trivial h
  exact (hinv.results t ht).1

/-- At the end every task has left a result. -/
theorem Inv.exists_result (hp : Inv T I Q R p) (hc : Complete T p) {i : Nat} (hi : i < T.count) :
    ∃ r, (i, r) ∈ p.results := by
  rcases hp.accounted i (Nat.lt_of_lt_of_le hi hc.1) with ⟨ph, hph⟩ | hr
  · rw [hc.2] at hph
    cases hph
  · exact hr

end Rule

/-! ## What a task knows of the shared state

Where the phases and results speak of the shared state too, they have to survive
the steps of the other tasks: every step guarantees `G`, and what is known of a
task is stable under `G`. -/

section Rely

variable {I : σ → Prop} {G : σ → σ → Prop} {Q : Nat → φ → σ → Prop} {R : Nat → ρ → σ → Prop}

/-- The shared state keeps its invariant, and each phase and each result is right
about it. -/
structure Knows (I : σ → Prop) (Q : Nat → φ → σ → Prop) (R : Nat → ρ → σ → Prop)
    (p : Pool σ φ ρ) : Prop where
  shared : I p.shared
  inFlight : ∀ t ∈ p.inFlight, Q t.1 t.2 p.shared
  results : ∀ t ∈ p.results, R t.1 t.2 p.shared

theorem step_knows (hstart : ∀ i s, I s → Q i (T.start i) s)
    (hphase : ∀ i ph e s s' ph', I s → Q i ph s → T.work i ph e s = some (s', .inl ph') →
      I s' ∧ G s s' ∧ Q i ph' s')
    (hdone : ∀ i ph e s s' r, I s → Q i ph s → T.work i ph e s = some (s', .inr r) →
      I s' ∧ G s s' ∧ R i r s')
    (hQ : ∀ i ph s s', G s s' → Q i ph s → Q i ph s')
    (hR : ∀ i r s s', G s s' → R i r s → R i r s')
    {ev : Event ε} (h : step T p ev = some p') (hp : Knows I Q R p) : Knows I Q R p' := by
  obtain ⟨-, -, -, rfl⟩ | ⟨i, e, ph, s, out, -, hph, hw, rfl⟩ := step_cases h
  · -- a task starts: the shared state is the same
    refine ⟨hp.shared, ?_, hp.results⟩
    intro t ht
    rcases List.mem_append.mp ht with ht | ht
    · exact hp.inFlight t ht
    · obtain rfl := List.mem_singleton.mp ht
      exact hstart _ _ hp.shared
  · have hmem := mem_of_lookup hph
    have hothers : ∀ t ∈ p.others i, Q t.1 t.2 p.shared :=
      fun t ht => hp.inFlight t (List.mem_of_mem_filter ht)
    cases out with
    | inl ph' =>
      obtain ⟨hI, hG, hQi⟩ := hphase i ph e _ s ph' hp.shared (hp.inFlight _ hmem) hw
      refine ⟨hI, ?_, fun t ht => hR _ _ _ _ hG (hp.results t ht)⟩
      intro t ht
      rcases List.mem_cons.mp ht with rfl | ht
      · exact hQi
      · exact hQ _ _ _ _ hG (hothers t ht)
    | inr r =>
      obtain ⟨hI, hG, hRi⟩ := hdone i ph e _ s r hp.shared (hp.inFlight _ hmem) hw
      refine ⟨hI, fun t ht => hQ _ _ _ _ hG (hothers t ht), ?_⟩
      intro t ht
      rcases List.mem_append.mp ht with ht | ht
      · exact hR _ _ _ _ hG (hp.results t ht)
      · obtain rfl := List.mem_singleton.mp ht
        exact hRi

/-- **The rely-guarantee rule of the pool.** -/
theorem run_knows (hstart : ∀ i s, I s → Q i (T.start i) s)
    (hphase : ∀ i ph e s s' ph', I s → Q i ph s → T.work i ph e s = some (s', .inl ph') →
      I s' ∧ G s s' ∧ Q i ph' s')
    (hdone : ∀ i ph e s s' r, I s → Q i ph s → T.work i ph e s = some (s', .inr r) →
      I s' ∧ G s s' ∧ R i r s')
    (hQ : ∀ i ph s s', G s s' → Q i ph s → Q i ph s')
    (hR : ∀ i r s s', G s s' → R i r s → R i r s') {s : σ} (hs : I s) {sched : List (Event ε)}
    (h : Machine.run (step T) { shared := s } sched = some p) : Knows I Q R p :=
  Machine.run_invariant (fun _ _ _ => step_knows hstart hphase hdone hQ hR) h
    ⟨hs, by simp, by simp⟩

end Rely

/-! ## Completion order -/

/-- The results and the tasks in flight are the tasks started so far, each once. -/
structure Partitioned (T : Tasks σ φ ρ ε) (p : Pool σ φ ρ) : Prop where
  perm : (p.results.map Prod.fst ++ p.inFlight.map Prod.fst).Perm (List.range p.next)
  next_le : p.next ≤ T.count

/-- Taking a task out of the pool takes its number out. -/
theorem perm_others (hnodup : (p.inFlight.map Prod.fst).Nodup) {i : Nat} {ph : φ}
    (h : (i, ph) ∈ p.inFlight) :
    (p.inFlight.map Prod.fst).Perm (i :: (p.others i).map Prod.fst) := by
  have herase : (p.others i).map Prod.fst = (p.inFlight.map Prod.fst).erase i := by
    rw [hnodup.erase_eq_filter, List.filter_map, others]
    congr 2
    funext t
    by_cases ht : t.1 = i <;> simp [ht]
  have hmem : i ∈ p.inFlight.map Prod.fst := List.mem_map_of_mem h
  rw [herase]
  exact List.perm_cons_erase hmem

theorem step_partitioned {ev : Event ε} (h : step T p ev = some p') (hp : Partitioned T p) :
    Partitioned T p' := by
  obtain ⟨-, hlt, -, rfl⟩ | ⟨i, e, ph, s, out, -, hph, -, rfl⟩ := step_cases h
  · refine ⟨?_, hlt⟩
    show (p.results.map Prod.fst ++ (p.inFlight ++ [(p.next, T.start p.next)]).map Prod.fst).Perm
      (List.range (p.next + 1))
    rw [List.map_append, ← List.append_assoc, List.range_succ]
    exact hp.perm.append_right _
  · refine ⟨?_, by cases out <;> exact hp.next_le⟩
    have hnodup : (p.inFlight.map Prod.fst).Nodup :=
      (hp.perm.nodup_iff.mpr List.nodup_range).of_append_right
    have hperm := perm_others hnodup (mem_of_lookup hph)
    have htotal := (hperm.append_left (p.results.map Prod.fst)).symm.trans hp.perm
    cases out with
    | inl ph' => exact htotal
    | inr r =>
      show ((p.results ++ [(i, r)]).map Prod.fst ++ (p.others i).map Prod.fst).Perm _
      rw [List.map_append, List.append_assoc]
      exact htotal

/-- **Every task ends once**: a complete run leaves one result for each task, in
some order. -/
theorem results_perm {s : σ} {sched : List (Event ε)}
    (h : Machine.run (step T) { shared := s } sched = some p) (hc : Complete T p) :
    (p.results.map Prod.fst).Perm (List.range T.count) := by
  have hp : Partitioned T p := Machine.run_invariant (fun _ _ _ => step_partitioned) h
    ⟨List.Perm.refl _, Nat.zero_le _⟩
  have hnext : p.next = T.count := Nat.le_antisymm hp.next_le hc.1
  have hperm := hp.perm
  rw [hc.2, hnext] at hperm
  simpa using hperm

/-! ## Progress -/

/-- What is left to do: two units for each task to come and one for each task in
flight, besides what their phases still need. -/
def remaining (T : Tasks σ φ ρ ε) (m : φ → Nat) (p : Pool σ φ ρ) : Nat :=
  ((List.range' p.next (T.count - p.next)).map fun i => m (T.start i) + 2).sum +
    (p.inFlight.map fun t => m t.2 + 1).sum

/-- Taking a task out of the pool leaves less to do. -/
theorem sum_others_add_le (m : φ → Nat) {i : Nat} {ph : φ} (h : (i, ph) ∈ p.inFlight) :
    ((p.others i).map fun t => m t.2 + 1).sum + (m ph + 1) ≤
      (p.inFlight.map fun t => m t.2 + 1).sum := by
  unfold others
  generalize p.inFlight = l at h
  induction l with
  | nil => cases h
  | cons t l ih =>
    rcases List.mem_cons.mp h with rfl | h
    · have hle : ((l.filter fun t => t.1 ≠ i).map fun t => m t.2 + 1).sum ≤
          (l.map fun t => m t.2 + 1).sum :=
        List.Sublist.sum_le_sum (List.filter_sublist.map _) (by simp)
      simp
      simp at hle
      omega
    · have hle := ih h
      by_cases hti : t.1 = i
      · simp [hti]
        simp at hle
        omega
      · simp [hti]
        simp at hle
        omega

/-- A step of task `i` leaves less to do, unless it goes on to a phase that needs
as much. -/
theorem remaining_settle_lt (m : φ → Nat) {i : Nat} {ph : φ} (hph : (i, ph) ∈ p.inFlight) (s : σ)
    {out : φ ⊕ ρ} (hout : ∀ ph', out = .inl ph' → m ph' < m ph) :
    remaining T m (p.settle i s out) < remaining T m p := by
  have hle := sum_others_add_le m hph
  cases out with
  | inl ph' =>
    have hlt := hout ph' rfl
    simp only [remaining, settle, List.map_cons, List.sum_cons]
    omega
  | inr r =>
    simp only [remaining, settle]
    omega

/-- **The pool drains.** If in every state with the invariant `P` a task in flight can
take a step that brings it closer to its end, by an event that meets `C`, some schedule
of such events completes the pool. -/
theorem exists_complete_of {P : Pool σ φ ρ → Prop} {C : Event ε → Prop} (hlimit : 0 < T.limit)
    (m : φ → Nat) (hstart : C .start)
    (hkeep : ∀ p ev p', P p → C ev → step T p ev = some p' → P p')
    (hwork : ∀ p i ph, P p → (i, ph) ∈ p.inFlight → ∃ e s' out, C (.work i e) ∧
      T.work i ph e p.shared = some (s', out) ∧ ∀ ph', out = .inl ph' → m ph' < m ph)
    {s : σ} (hs : P { shared := s }) :
    ∃ sched p, Machine.run (step T) { shared := s } sched = some p ∧ Complete T p ∧
      ∀ ev ∈ sched, C ev := by
  have hstep : ∀ p : Pool σ φ ρ, P p → ¬ Complete T p →
      ∃ ev p', C ev ∧ step T p ev = some p' ∧ P p' ∧ remaining T m p' < remaining T m p := by
    intro p hP hp
    cases hin : p.inFlight with
    | nil =>
      -- nothing is in flight, so there is a task left to start
      have hnext : p.next < T.count := by
        by_contra hge
        exact hp ⟨Nat.le_of_not_lt hge, hin⟩
      have hrange : T.count - p.next = (T.count - (p.next + 1)) + 1 := by omega
      have hev : step T p .start =
          some { p with next := p.next + 1, inFlight := [(p.next, T.start p.next)] } := by
        simp [step, hnext, hin, hlimit]
      refine ⟨.start, _, hstart, hev, hkeep p _ _ hP hstart hev, ?_⟩
      simp only [remaining, hin, hrange, List.range'_succ, List.map_cons, List.sum_cons,
        List.map_nil, List.sum_nil]
      omega
    | cons t l =>
      obtain ⟨i, ph⟩ := t
      have hlookup : p.inFlight.lookup i = some ph := by simp [hin]
      obtain ⟨e, s', out, hC, hw, hout⟩ := hwork p i ph hP (mem_of_lookup hlookup)
      have hev : step T p (.work i e) = some (p.settle i s' out) := by
        simp [step, hlookup, hw]
      exact ⟨.work i e, p.settle i s' out, hC, hev, hkeep p _ _ hP hC hev,
        remaining_settle_lt m (mem_of_lookup hlookup) s' hout⟩
  obtain ⟨sched, q, hrun, -, hq, hall⟩ := Machine.exists_run_final_of (remaining T m) hstep
    { shared := s } hs
  exact ⟨sched, q, hrun, hq, hall⟩

/-- If a task in flight can always take a step that brings it closer to its end, some
schedule completes the pool. -/
theorem exists_complete (hlimit : 0 < T.limit) (m : φ → Nat)
    (hwork : ∀ i ph s, ∃ e s' out, T.work i ph e s = some (s', out) ∧
      ∀ ph', out = .inl ph' → m ph' < m ph) (s : σ) :
    ∃ sched p, Machine.run (step T) { shared := s } sched = some p ∧ Complete T p := by
  have hwork' : ∀ (p : Pool σ φ ρ) i ph, True → (i, ph) ∈ p.inFlight → ∃ e s' out, True ∧
      T.work i ph e p.shared = some (s', out) ∧ ∀ ph', out = .inl ph' → m ph' < m ph := by
    intro p i ph _ _
    obtain ⟨e, s', out, h⟩ := hwork i ph p.shared
    exact ⟨e, s', out, trivial, h⟩
  obtain ⟨sched, p, hrun, hc, -⟩ := exists_complete_of (C := fun _ => True) hlimit m trivial
    (fun _ _ _ _ _ _ => trivial) hwork' (s := s) trivial
  exact ⟨sched, p, hrun, hc⟩

end Pool
