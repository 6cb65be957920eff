import Rs5cmd.Lib.Pool
import Mathlib.Data.Set.Function
import Mathlib.Logic.Function.Basic

/-!
# Tasks that keep out of each other's way

Tasks take turns on a shared map from cells to values. When what a task writes is
neither read nor written by another one, each task does what it would do alone, and what
they leave together is what each of them leaves alone, whatever the order of their steps.
-/

/-- The shared cells, and where each task stands: in a phase, or at its result. -/
structure Turns (ι C V φ ρ : Type*) where
  shared : C → V
  status : ι → φ ⊕ ρ

namespace Turns

variable {ι C V φ ρ ε : Type*} [DecidableEq ι]

/-- One step of the task `e.1`. -/
def step (work : ι → φ → ε → (C → V) → Option ((C → V) × (φ ⊕ ρ))) (s : Turns ι C V φ ρ)
    (e : ι × ε) : Option (Turns ι C V φ ρ) :=
  match s.status e.1 with
  | .inl ph =>
    (work e.1 ph e.2 s.shared).map fun out => ⟨out.1, Function.update s.status e.1 out.2⟩
  | .inr _ => none

/-- A step of a task that has the cells to itself. -/
def solo (work : φ → ε → (C → V) → Option ((C → V) × (φ ⊕ ρ))) (s : (C → V) × (φ ⊕ ρ)) (e : ε) :
    Option ((C → V) × (φ ⊕ ρ)) :=
  match s.2 with
  | .inl ph => work ph e s.1
  | .inr _ => none

/-- No task writes what another one touches. `foot i` are the cells that task `i` touches
and `dirty i` those it writes, as long as the invariant `I i` holds of its phase. -/
structure Apart (work : ι → φ → ε → (C → V) → Option ((C → V) × (φ ⊕ ρ))) (foot dirty : ι → Set C)
    (I : ι → φ → (C → V) → Prop) : Prop where
  disjoint : ∀ i j, i ≠ j → ∀ c ∈ dirty i, c ∉ foot j
  congr : ∀ i ph w v, I i ph w → Set.EqOn w v (foot i) → I i ph v
  frame : ∀ i ph e w w' out, I i ph w → work i ph e w = some (w', out) →
    Set.EqOn w' w (dirty i)ᶜ ∧ ∀ ph', out = .inl ph' → I i ph' w'
  steps : ∀ i ph e w v w' out, I i ph w → Set.EqOn w v (foot i) → work i ph e w = some (w', out) →
    ∃ v', work i ph e v = some (v', out) ∧ Set.EqOn w' v' (foot i)

variable {work : ι → φ → ε → (C → V) → Option ((C → V) × (φ ⊕ ρ))} {foot dirty : ι → Set C}
  {I : ι → φ → (C → V) → Prop} {s s' : Turns ι C V φ ρ}

/-- Everything a step can do. -/
theorem step_cases {i : ι} {ev : ε} (h : step work s (i, ev) = some s') :
    ∃ ph w out, s.status i = .inl ph ∧ work i ph ev s.shared = some (w, out) ∧
      s' = ⟨w, Function.update s.status i out⟩ := by
  unfold step at h
  split at h
  · rename_i ph hph
    obtain ⟨⟨w, out⟩, hw, rfl⟩ := Option.map_eq_some_iff.mp h
    exact ⟨ph, w, out, hph, hw, rfl⟩
  · cases h

/-- What is known of task `i`: alone it would stand where it stands, and the cells it
touches would hold what they hold. -/
def AsAlone (work : ι → φ → ε → (C → V) → Option ((C → V) × (φ ⊕ ρ))) (foot : ι → Set C)
    (I : ι → φ → (C → V) → Prop) (w₀ : C → V) (start : ι → φ) (s : Turns ι C V φ ρ) (i : ι) : Prop :=
  ∃ es v, Machine.run (solo (work i)) (w₀, .inl (start i)) es = some (v, s.status i) ∧
    Set.EqOn v s.shared (foot i) ∧ ∀ ph, s.status i = .inl ph → I i ph v

/-- The step of one task, seen by this task and by another one. -/
theorem step_asAlone (h : Apart work foot dirty I) {w₀ : C → V} {start : ι → φ} {i : ι} {ev : ε}
    (hstep : step work s (i, ev) = some s') (hs : ∀ j, AsAlone work foot I w₀ start s j) (j : ι) :
    AsAlone work foot I w₀ start s' j := by
  obtain ⟨ph, w, out, hph, hw, rfl⟩ := step_cases hstep
  obtain ⟨esi, vi, hruni, heqi, hIi⟩ := hs i
  have hI : I i ph s.shared := h.congr i ph vi s.shared (hIi ph hph) heqi
  obtain ⟨hframe, hnext⟩ := h.frame i ph ev s.shared w out hI hw
  by_cases hji : j = i
  · subst hji
    obtain ⟨v', hv', heq'⟩ := h.steps j ph ev s.shared vi w out hI heqi.symm hw
    refine ⟨esi ++ [ev], v', ?_, ?_, ?_⟩
    · rw [Machine.run_append, hruni, hph, Option.bind_some]
      refine Machine.run_cons_eq_some.mpr ⟨(v', out), hv', ?_⟩
      show some (v', out) = some (v', Function.update s.status j out j)
      rw [Function.update_self]
    · exact heq'.symm
    · intro ph' hph'
      have hout : out = .inl ph' := by
        rw [← hph']
        exact (Function.update_self j out s.status).symm
      exact h.congr j ph' w v' (hnext ph' hout) heq'
  · obtain ⟨es, v, hrun, heq, hIj⟩ := hs j
    have hsame : Function.update s.status i out j = s.status j := Function.update_of_ne hji _ _
    refine ⟨es, v, ?_, ?_, ?_⟩
    · show Machine.run _ _ es = some (v, Function.update s.status i out j)
      rw [hsame]
      exact hrun
    · -- the other task writes nothing that this one touches
      intro c hc
      have hclean : c ∈ (dirty i)ᶜ := fun hd =>
        h.disjoint i j (fun hij => hji hij.symm) c hd hc
      rw [heq hc]
      exact (hframe hclean).symm
    · intro ph' hph'
      exact hIj ph' (hsame.symm.trans hph')

/-- **Tasks that keep out of each other's way run as if they were alone**, and a cell that
none of them writes stays as it was. -/
theorem run_asAlone (h : Apart work foot dirty I) {w₀ : C → V} {start : ι → φ}
    (hinit : ∀ i, I i (start i) w₀) {es : List (ι × ε)}
    (hrun : Machine.run (step work) ⟨w₀, fun i => .inl (start i)⟩ es = some s) :
    (∀ i, AsAlone work foot I w₀ start s i) ∧ ∀ c, (∀ i, c ∉ dirty i) → s.shared c = w₀ c := by
  refine Machine.run_invariant (P := fun s => (∀ i, AsAlone work foot I w₀ start s i) ∧
    ∀ c, (∀ i, c ∉ dirty i) → s.shared c = w₀ c) ?_ hrun ⟨?_, fun _ _ => rfl⟩
  · rintro t ⟨i, ev⟩ t' hstep ⟨halone, hclean⟩
    refine ⟨step_asAlone h hstep halone, ?_⟩
    intro c hc
    obtain ⟨ph, w, out, hph, hw, rfl⟩ := step_cases hstep
    obtain ⟨esi, vi, -, heqi, hIi⟩ := halone i
    have hI : I i ph t.shared := h.congr i ph vi t.shared (hIi ph hph) heqi
    rw [← hclean c hc]
    exact (h.frame i ph ev t.shared w out hI hw).1 (hc i)
  · intro i
    refine ⟨[], w₀, rfl, fun _ _ => rfl, ?_⟩
    intro ph hph
    obtain rfl := Sum.inl.inj hph
    exact hinit i

end Turns

/-! ## Pools -/

namespace Pool

variable {σ C V φ ρ ε : Type*}

/-- Each task of the pool stands where `status` says. -/
structure Follows (T : Tasks σ φ ρ ε) (status : Nat → φ ⊕ ρ) (p : Pool σ φ ρ) : Prop where
  wf : p.Wf
  partitioned : Partitioned T p
  inFlight : ∀ i ph, (i, ph) ∈ p.inFlight → status i = .inl ph
  results : ∀ i r, (i, r) ∈ p.results → status i = .inr r
  waiting : ∀ i, p.next ≤ i → status i = .inl (T.start i)

theorem follows_init (T : Tasks σ φ ρ ε) (w : σ) :
    Follows T (fun i => .inl (T.start i)) { shared := w } :=
  ⟨wf_init w, ⟨List.Perm.refl _, Nat.zero_le _⟩, by simp, by simp, fun _ _ => rfl⟩

/-- When the pool is complete, each task stands at its result. -/
theorem Follows.exists_result {T : Tasks σ φ ρ ε} {status : Nat → φ ⊕ ρ} {p : Pool σ φ ρ}
    (hp : Follows T status p) (hc : Complete T p) {i : Nat} (hi : i < T.count) :
    ∃ r, (i, r) ∈ p.results ∧ status i = .inr r := by
  have hperm := hp.partitioned.perm
  rw [hc.2, List.map_nil, List.append_nil] at hperm
  have hmem : i ∈ p.results.map Prod.fst :=
    hperm.mem_iff.mpr (List.mem_range.mpr (Nat.lt_of_lt_of_le hi hc.1))
  obtain ⟨⟨j, r⟩, hr, rfl⟩ := List.mem_map.mp hmem
  exact ⟨r, hr, hp.results j r hr⟩

/-- A complete run has a result for each task. -/
theorem exists_result_of_complete {T : Tasks σ φ ρ ε} {w : σ} {p : Pool σ φ ρ}
    {sched : List (Event ε)} (h : Machine.run (step T) { shared := w } sched = some p)
    (hc : Complete T p) {i : Nat} (hi : i < T.count) : ∃ r, (i, r) ∈ p.results := by
  have hmem : i ∈ p.results.map Prod.fst :=
    (results_perm h hc).mem_iff.mpr (List.mem_range.mpr hi)
  obtain ⟨⟨j, r⟩, hr, rfl⟩ := List.mem_map.mp hmem
  exact ⟨r, hr⟩

/-- An event starts a task, or is a step of one. -/
theorem step_follows {T : Tasks σ φ ρ ε} {status : Nat → φ ⊕ ρ} {p p' : Pool σ φ ρ} {ev : Event ε}
    (h : step T p ev = some p') (hp : Follows T status p) :
    (p'.shared = p.shared ∧ Follows T status p') ∨
    ∃ i e ph w out, ev = .work i e ∧ status i = .inl ph ∧ T.work i ph e p.shared = some (w, out) ∧
      p'.shared = w ∧ Follows T (Function.update status i out) p' := by
  have hwf := step_wf h hp.wf
  have hpart := step_partitioned h hp.partitioned
  obtain ⟨-, hlt, -, rfl⟩ | ⟨i, e, ph, w, out, rfl, hph, hw, rfl⟩ := step_cases h
  · refine .inl ⟨rfl, hwf, hpart, ?_, hp.results, fun i hi => hp.waiting i (Nat.le_of_succ_le hi)⟩
    intro i ph hmem
    rcases List.mem_append.mp hmem with hmem | hmem
    · exact hp.inFlight i ph hmem
    · obtain ⟨rfl, rfl⟩ := Prod.mk.inj (List.mem_singleton.mp hmem)
      exact hp.waiting p.next (Nat.le_refl _)
  · have hmem := mem_of_lookup hph
    have hstands := hp.inFlight i ph hmem
    have hlt : i < p.next := hp.wf.lt_next _ hmem
    refine .inr ⟨i, e, ph, w, out, rfl, hstands, hw, by cases out <;> rfl, hwf, hpart, ?_, ?_, ?_⟩
    · intro j ph' hj
      have hothers : (j, ph') ∈ p.others i → Function.update status i out j = .inl ph' := by
        intro hj
        have hji : j ≠ i := fun hji => not_mem_others p i ph' (hji ▸ hj)
        rw [Function.update_of_ne hji]
        exact hp.inFlight j ph' ((mem_others hji).mp hj)
      cases out with
      | inl ph'' =>
        rcases List.mem_cons.mp hj with heq | hj
        · obtain ⟨rfl, rfl⟩ := Prod.mk.inj heq
          exact Function.update_self ..
        · exact hothers hj
      | inr r => exact hothers hj
    · intro j r hj
      have hold : (j, r) ∈ p.results → Function.update status i out j = .inr r := by
        intro hold
        have hji : j ≠ i := by
          intro hji
          subst hji
          rw [hp.results j r hold] at hstands
          cases hstands
        rw [Function.update_of_ne hji]
        exact hp.results j r hold
      cases out with
      | inl ph'' => exact hold hj
      | inr r' =>
        rcases List.mem_append.mp hj with hj | hj
        · exact hold hj
        · obtain ⟨rfl, rfl⟩ := Prod.mk.inj (List.mem_singleton.mp hj)
          exact Function.update_self ..
    · intro j hj
      have hnext : p.next ≤ j := by cases out <;> exact hj
      rw [Function.update_of_ne (by omega)]
      exact hp.waiting j hnext

/-- **A run of a pool is a run of its tasks taking turns.** -/
theorem run_turns {T : Tasks (C → V) φ ρ ε} {w₀ : C → V} {p : Pool (C → V) φ ρ}
    {sched : List (Event ε)} (h : Machine.run (step T) { shared := w₀ } sched = some p) :
    ∃ es status, Machine.run (Turns.step T.work) ⟨w₀, fun i => .inl (T.start i)⟩ es =
      some ⟨p.shared, status⟩ ∧ Follows T status p := by
  refine Machine.run_invariant (P := fun p => ∃ es status, Machine.run (Turns.step T.work)
    ⟨w₀, fun i => .inl (T.start i)⟩ es = some ⟨p.shared, status⟩ ∧ Follows T status p) ?_ h
    ⟨[], _, rfl, follows_init T w₀⟩
  rintro p ev p' hstep ⟨es, status, hrun, hp⟩
  obtain ⟨hshared, hp'⟩ | ⟨i, e, ph, w, out, -, hstands, hw, rfl, hp'⟩ := step_follows hstep hp
  · exact ⟨es, status, by rw [hshared]; exact hrun, hp'⟩
  · refine ⟨es ++ [(i, e)], _, ?_, hp'⟩
    rw [Machine.run_append, hrun, Option.bind_some]
    refine Machine.run_cons_eq_some.mpr ⟨_, ?_, rfl⟩
    simp only [Turns.step, hstands, hw, Option.map_some]

end Pool

/-! ## Shards -/

/-- Several pools on one shared state, each with tasks of its own. -/
structure Shards (σ φ ρ : Type*) where
  shared : σ
  members : List (Pool σ φ ρ)

namespace Shards

variable {σ C V φ ρ ε : Type*}

/-- One event of the pool `e.1`. -/
def step (Ts : Nat → Tasks σ φ ρ ε) (f : Shards σ φ ρ) (e : Nat × Pool.Event ε) :
    Option (Shards σ φ ρ) :=
  (f.members[e.1]?).bind fun p =>
    (Pool.step (Ts e.1) { p with shared := f.shared } e.2).map fun p' =>
      ⟨p'.shared, f.members.set e.1 p'⟩

/-- `n` pools in which nothing has been started. -/
def init (n : Nat) (w : σ) : Shards σ φ ρ := ⟨w, List.replicate n { shared := w }⟩

def Complete (Ts : Nat → Tasks σ φ ρ ε) (f : Shards σ φ ρ) : Prop :=
  ∀ k p, f.members[k]? = some p → Pool.Complete (Ts k) p

theorem run_length {Ts : Nat → Tasks σ φ ρ ε} {n : Nat} {w : σ} {f : Shards σ φ ρ}
    {sched : List (Nat × Pool.Event ε)} (h : Machine.run (step Ts) (init n w) sched = some f) :
    f.members.length = n := by
  refine Machine.run_invariant (P := fun f : Shards σ φ ρ => f.members.length = n) ?_ h
    List.length_replicate
  rintro f ⟨k, ev⟩ f' hstep hf
  obtain ⟨p, -, hstep⟩ := Option.bind_eq_some_iff.mp hstep
  obtain ⟨p', -, rfl⟩ := Option.map_eq_some_iff.mp hstep
  exact List.length_set.trans hf

/-- The steps of the tasks of all the pools; a task has the number of its pool and its own. -/
def work (Ts : Nat → Tasks σ φ ρ ε) (i : Nat × Nat) : φ → ε → σ → Option (σ × (φ ⊕ ρ)) :=
  (Ts i.1).work i.2

/-- **A run of several pools is a run of all their tasks taking turns.** -/
theorem run_turns {Ts : Nat → Tasks (C → V) φ ρ ε} {n : Nat} {w₀ : C → V} {f : Shards (C → V) φ ρ}
    {sched : List (Nat × Pool.Event ε)} (h : Machine.run (step Ts) (init n w₀) sched = some f) :
    ∃ es status, Machine.run (Turns.step (work Ts)) ⟨w₀, fun i => .inl ((Ts i.1).start i.2)⟩ es =
      some ⟨f.shared, status⟩ ∧ ∀ k p, f.members[k]? = some p →
        Pool.Follows (Ts k) (fun i => status (k, i)) p := by
  refine Machine.run_invariant (P := fun f => ∃ es status, Machine.run (Turns.step (work Ts))
    ⟨w₀, fun i => .inl ((Ts i.1).start i.2)⟩ es = some ⟨f.shared, status⟩ ∧
      ∀ k p, f.members[k]? = some p → Pool.Follows (Ts k) (fun i => status (k, i)) p) ?_ h
    ⟨[], _, rfl, ?_⟩
  · rintro f ⟨k, ev⟩ f' hstep ⟨es, status, hrun, hf⟩
    obtain ⟨p, hp, hstep⟩ := Option.bind_eq_some_iff.mp hstep
    obtain ⟨p', hp', rfl⟩ := Option.map_eq_some_iff.mp hstep
    obtain ⟨hwf, hpart, hin, hres, hwait⟩ := hf k p hp
    have hfollows : Pool.Follows (Ts k) (fun i => status (k, i)) { p with shared := f.shared } :=
      ⟨⟨hwf.nodup, hwf.lt_next⟩, ⟨hpart.perm, hpart.next_le⟩, hin, hres, hwait⟩
    have hk : k < f.members.length := (List.getElem?_eq_some_iff.mp hp).1
    obtain ⟨hshared, hnew⟩ | ⟨i, e, ph, w, out, -, hstands, hw, rfl, hnew⟩ :=
      Pool.step_follows hp' hfollows
    · refine ⟨es, status, by rw [hshared]; exact hrun, ?_⟩
      intro j q hq
      by_cases hjk : j = k
      · subst hjk
        rw [List.getElem?_set_self hk] at hq
        obtain rfl := Option.some.inj hq
        exact hnew
      · rw [List.getElem?_set_ne (Ne.symm hjk)] at hq
        exact hf j q hq
    · refine ⟨es ++ [((k, i), e)], Function.update status (k, i) out, ?_, ?_⟩
      · rw [Machine.run_append, hrun, Option.bind_some]
        refine Machine.run_cons_eq_some.mpr ⟨_, ?_, rfl⟩
        have hstands' : status (k, i) = .inl ph := hstands
        have hw' : work Ts (k, i) ph e f.shared = some (p'.shared, out) := hw
        simp only [Turns.step, hstands', hw', Option.map_some]
      · intro j q hq
        by_cases hjk : j = k
        · subst hjk
          rw [List.getElem?_set_self hk] at hq
          obtain rfl := Option.some.inj hq
          have hsame : (fun i' => Function.update status (j, i) out (j, i')) =
              Function.update (fun i' => status (j, i')) i out := by
            funext i'
            by_cases hi : i' = i
            · subst hi
              rw [Function.update_self, Function.update_self]
            · rw [Function.update_of_ne hi, Function.update_of_ne fun heq => hi (Prod.mk.inj heq).2]
          rw [hsame]
          exact hnew
        · rw [List.getElem?_set_ne (Ne.symm hjk)] at hq
          have hsame : (fun i' => Function.update status (k, i) out (j, i')) =
              fun i' => status (j, i') := by
            funext i'
            exact Function.update_of_ne (fun heq => hjk (Prod.mk.inj heq).1) _ _
          rw [hsame]
          exact hf j q hq
  · intro k p hp
    have hmem := List.mem_of_getElem? hp
    obtain rfl := (List.mem_replicate.mp hmem).2
    exact Pool.follows_init (Ts k) w₀

end Shards
