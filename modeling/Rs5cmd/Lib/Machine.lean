import Mathlib.Data.List.Basic

/-!
# Machines driven by events

A machine is a partial step function: an event either is not enabled in a state
or leads to one next state. A schedule is a list of events, so a statement about
every schedule is a statement about every interleaving.
-/

namespace Machine

variable {σ ε : Type*}

/-- The state after a schedule, if each of its events is enabled in turn. -/
def run (step : σ → ε → Option σ) : σ → List ε → Option σ
  | s, [] => some s
  | s, e :: es => (step s e).bind fun s' => run step s' es

/-- Every event of the schedule meets `C` in the state in which it happens. -/
def Along (step : σ → ε → Option σ) (C : σ → ε → Prop) : σ → List ε → Prop
  | _, [] => True
  | s, e :: es => C s e ∧ ∀ s', step s e = some s' → Along step C s' es

/-- Every state that the schedule leads through satisfies `P`. -/
def Always (step : σ → ε → Option σ) (P : σ → Prop) : σ → List ε → Prop
  | s, [] => P s
  | s, e :: es => P s ∧ ∀ s', step s e = some s' → Always step P s' es

variable {step : σ → ε → Option σ}

@[simp] theorem run_nil (s : σ) : run step s [] = some s := rfl

theorem run_cons_eq_some {s t : σ} {e : ε} {es : List ε} :
    run step s (e :: es) = some t ↔ ∃ s', step s e = some s' ∧ run step s' es = some t :=
  Option.bind_eq_some_iff

theorem run_append {s : σ} {es fs : List ε} :
    run step s (es ++ fs) = (run step s es).bind fun t => run step t fs := by
  induction es generalizing s with
  | nil => rfl
  | cons e es ih =>
    show (step s e).bind (fun s' => run step s' (es ++ fs)) = _
    cases hs : step s e with
    | none => simp [run, hs]
    | some s' => simpa [run, hs] using ih

theorem run_append_eq_some {s t : σ} {es fs : List ε} :
    run step s (es ++ fs) = some t ↔ ∃ u, run step s es = some u ∧ run step u fs = some t := by
  rw [run_append]
  exact Option.bind_eq_some_iff

/-- What each step that meets `C` preserves holds at the end of a run whose
steps all meet `C`. -/
theorem along_invariant {C : σ → ε → Prop} {P : σ → Prop}
    (hstep : ∀ s e s', C s e → step s e = some s' → P s → P s')
    {s t : σ} {es : List ε} (hC : Along step C s es) (h : run step s es = some t) (hs : P s) :
    P t := by
  induction es generalizing s with
  | nil =>
    obtain rfl := Option.some.inj h
    exact hs
  | cons e es ih =>
    obtain ⟨s', hs', hrun⟩ := run_cons_eq_some.mp h
    obtain ⟨hCe, hrest⟩ := hC
    exact ih (hrest s' hs') hrun (hstep s e s' hCe hs' hs)

theorem along_of_forall {C : σ → ε → Prop} (h : ∀ s e, C s e) (s : σ) (es : List ε) :
    Along step C s es := by
  induction es generalizing s with
  | nil => exact trivial
  | cons e es ih => exact ⟨h s e, fun s' _ => ih s'⟩

/-- What every step preserves holds at the end of every run. -/
theorem run_invariant {P : σ → Prop} (hstep : ∀ s e s', step s e = some s' → P s → P s')
    {s t : σ} {es : List ε} (h : run step s es = some t) (hs : P s) : P t := by
  have hC : Along step (fun _ _ => True) s es := along_of_forall (fun _ _ => trivial) s es
  exact along_invariant (fun s e s' _ => hstep s e s') hC h hs

/-- Where two machines agree on the steps to states of `P`, which come from states of `P`
only, a run of the one that ends in `P` is a run of the other. -/
theorem run_of_agree {step' : σ → ε → Option σ} {P : σ → Prop}
    (hback : ∀ s e s', step s e = some s' → P s' → P s)
    (hagree : ∀ s e s', step s e = some s' → P s' → step' s e = some s') {s t : σ} {es : List ε}
    (h : run step s es = some t) (ht : P t) : P s ∧ run step' s es = some t := by
  induction es generalizing s with
  | nil =>
    obtain rfl := Option.some.inj h
    exact ⟨ht, rfl⟩
  | cons e es ih =>
    obtain ⟨s', hs', hrun⟩ := run_cons_eq_some.mp h
    obtain ⟨hP, hrun'⟩ := ih hrun
    exact ⟨hback s e s' hs' hP, run_cons_eq_some.mpr ⟨s', hagree s e s' hs' hP, hrun'⟩⟩

/-- What each step from a state with the invariant `I` meets, every step of a run
meets. -/
theorem along_of_invariant {I : σ → Prop} {C : σ → ε → Prop}
    (hstep : ∀ s e s', step s e = some s' → I s → I s')
    (hC : ∀ s e s', step s e = some s' → I s → C s e) {s t : σ} {es : List ε}
    (h : run step s es = some t) (hs : I s) : Along step C s es := by
  induction es generalizing s with
  | nil => exact trivial
  | cons e es ih =>
    obtain ⟨s', hs', hrun⟩ := run_cons_eq_some.mp h
    refine ⟨hC s e s' hs' hs, fun u hu => ?_⟩
    obtain rfl := Option.some.inj (hs'.symm.trans hu)
    exact ih hrun (hstep s e s' hs' hs)

theorem along_of_mem {C : ε → Prop} (s : σ) {es : List ε} (h : ∀ e ∈ es, C e) :
    Along step (fun _ e => C e) s es := by
  induction es generalizing s with
  | nil => exact trivial
  | cons e es ih =>
    refine ⟨h e List.mem_cons_self, fun s' _ => ?_⟩
    exact ih s' fun e' he' => h e' (List.mem_cons_of_mem e he')

theorem Along.and {C D : σ → ε → Prop} {s : σ} {es : List ε} (hC : Along step C s es)
    (hD : Along step D s es) : Along step (fun s e => C s e ∧ D s e) s es := by
  induction es generalizing s with
  | nil => exact trivial
  | cons e es ih => exact ⟨⟨hC.1, hD.1⟩, fun s' hs' => ih (hC.2 s' hs') (hD.2 s' hs')⟩

/-- Where the steps that meet `C` keep `I` and, from a state with `I`, meet `D`, a
run of such steps meets `D` throughout. -/
theorem Along.mono_of_invariant {C D : σ → ε → Prop} {I : σ → Prop}
    (hstep : ∀ s e s', I s → C s e → step s e = some s' → I s')
    (hD : ∀ s e, I s → C s e → D s e) {s : σ} {es : List ε} (hC : Along step C s es) (hs : I s) :
    Along step D s es := by
  induction es generalizing s with
  | nil => exact trivial
  | cons e es ih =>
    refine ⟨hD s e hs hC.1, fun s' hs' => ?_⟩
    exact ih (hC.2 s' hs') (hstep s e s' hs hC.1 hs')

/-- What each step that meets `C` preserves holds in every state of a run whose
steps all meet `C`. -/
theorem always_of_along {C : σ → ε → Prop} {P : σ → Prop}
    (hstep : ∀ s e s', C s e → step s e = some s' → P s → P s')
    {s : σ} {es : List ε} (hC : Along step C s es) (hs : P s) : Always step P s es := by
  induction es generalizing s with
  | nil => exact hs
  | cons e es ih =>
    obtain ⟨hCe, hrest⟩ := hC
    exact ⟨hs, fun s' hs' => ih (hrest s' hs') (hstep s e s' hCe hs' hs)⟩

theorem Always.imp {P Q : σ → Prop} (hPQ : ∀ s, P s → Q s) {s : σ} {es : List ε}
    (h : Always step P s es) : Always step Q s es := by
  induction es generalizing s with
  | nil => exact hPQ s h
  | cons e es ih => exact ⟨hPQ s h.1, fun s' hs' => ih (h.2 s' hs')⟩

theorem Always.head {P : σ → Prop} {s : σ} {es : List ε} (h : Always step P s es) : P s := by
  cases es with
  | nil => exact h
  | cons e es => exact h.1

/-- Where each step from a state with `I` leads to `P` just when it meets `C`, the
runs that stay in `P` are those whose steps all meet `C`. -/
theorem always_iff_along {C : σ → ε → Prop} {I P : σ → Prop} (hP : ∀ s, I s → P s)
    (hpreserve : ∀ s e s', I s → C s e → step s e = some s' → I s')
    (hforced : ∀ s e s', I s → step s e = some s' → P s' → C s e)
    {s t : σ} {es : List ε} (h : run step s es = some t) (hs : I s) :
    Always step P s es ↔ Along step C s es := by
  induction es generalizing s with
  | nil => exact ⟨fun _ => trivial, fun _ => hP s hs⟩
  | cons e es ih =>
    obtain ⟨s', hs', hrun⟩ := run_cons_eq_some.mp h
    have hnext : (∀ u, step s e = some u → Always step P u es) ↔ Always step P s' es :=
      ⟨fun hall => hall s' hs', fun hone u hu => Option.some.inj (hs'.symm.trans hu) ▸ hone⟩
    constructor
    · intro hall
      have hrest := hnext.mp hall.2
      have hC : C s e := hforced s e s' hs hs' hrest.head
      refine ⟨hC, fun u hu => ?_⟩
      obtain rfl := Option.some.inj (hs'.symm.trans hu)
      exact (ih hrun (hpreserve s e s' hs hC hs')).mp hrest
    · intro hall
      have hI : I s' := hpreserve s e s' hs hall.1 hs'
      exact ⟨hP s hs, hnext.mpr ((ih hrun hI).mpr (hall.2 s' hs'))⟩

/-- A machine that can always take a step towards the end, measured by `m` and by an
event that meets `C`, has a schedule of such events that gets there. -/
theorem exists_run_final_of {P final : σ → Prop} {C : ε → Prop} (m : σ → Nat)
    (hstep : ∀ s, P s → ¬ final s → ∃ e s', C e ∧ step s e = some s' ∧ P s' ∧ m s' < m s)
    (s : σ) (hs : P s) :
    ∃ es t, run step s es = some t ∧ P t ∧ final t ∧ ∀ e ∈ es, C e := by
  by_cases hf : final s
  · exact ⟨[], s, rfl, hs, hf, by simp⟩
  · obtain ⟨e, s', he, hs', hP, hm⟩ := hstep s hs hf
    obtain ⟨es, t, hrun, hPt, hft, hes⟩ := exists_run_final_of m hstep s' hP
    refine ⟨e :: es, t, run_cons_eq_some.mpr ⟨s', hs', hrun⟩, hPt, hft, ?_⟩
    intro e' he'
    rcases List.mem_cons.mp he' with rfl | he'
    · exact he
    · exact hes e' he'
  termination_by m s

/-- A machine that can always take a step towards the end, measured by `m`, has
a schedule that gets there. -/
theorem exists_run_final {P final : σ → Prop} (m : σ → Nat)
    (hstep : ∀ s, P s → ¬ final s → ∃ e s', step s e = some s' ∧ P s' ∧ m s' < m s)
    (s : σ) (hs : P s) : ∃ es t, run step s es = some t ∧ P t ∧ final t := by
  have hstep' : ∀ s, P s → ¬ final s → ∃ e s', True ∧ step s e = some s' ∧ P s' ∧ m s' < m s := by
    intro s hs hf
    obtain ⟨e, s', h⟩ := hstep s hs hf
    exact ⟨e, s', trivial, h⟩
  obtain ⟨es, t, hrun, hP, hf, -⟩ := exists_run_final_of (C := fun _ => True) m hstep' s hs
  exact ⟨es, t, hrun, hP, hf⟩

/-- Runs of steps that all count down are bounded. -/
theorem length_add_le {m : σ → Nat} (hm : ∀ s e s', step s e = some s' → m s' < m s) {s t : σ}
    {es : List ε} (h : run step s es = some t) : es.length + m t ≤ m s := by
  induction es generalizing s with
  | nil =>
    obtain rfl := Option.some.inj h
    simp
  | cons e es ih =>
    obtain ⟨s', hs', hrun⟩ := run_cons_eq_some.mp h
    have hlt := hm s e s' hs'
    have hle := ih hrun
    rw [List.length_cons]
    omega

/-- A concrete run, evaluated. -/
theorem exists_run_of_any {P : σ → Prop} [DecidablePred P] {s : σ} {es : List ε}
    (h : ((run step s es).any fun t => decide (P t)) = true) :
    ∃ t, run step s es = some t ∧ P t := by
  cases hrun : run step s es with
  | none =>
    rw [hrun] at h
    cases h
  | some t =>
    rw [hrun] at h
    exact ⟨t, rfl, of_decide_eq_true h⟩

end Machine
