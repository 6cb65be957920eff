import Rs5cmd.Lib.Machine
import Mathlib.Data.List.Perm.Basic

/-!
# Bounded spawn and join loops

A loop over a list of items spawns one task for each, at most `workers` at a
time. It joins a task only when there is no room for another, when nothing is
left to spawn, or after it has decided to stop; then it drains. Each join is
reported into an accumulator, which also decides about stopping. Which task is
joined, and with which result, is up to the schedule.
-/

/-- What a loop does with its results. -/
structure JoinLoop.Params (α ρ σ : Type*) where
  workers : Nat
  report : σ → α × ρ → σ
  stop : σ → Bool

/-- The state of a loop. `joined` holds the results in join order. -/
structure JoinLoop (α ρ σ : Type*) where
  todo : List α
  inFlight : List α := []
  joined : List (α × ρ) := []
  acc : σ

inductive JoinLoop.Event (ρ : Type*) where
  | spawn
  | join (i : Nat) (r : ρ)
  deriving DecidableEq, Repr

namespace JoinLoop

variable {α ρ σ : Type*}

/-- A task is joined rather than another one spawned. -/
def Draining (P : Params α ρ σ) (s : JoinLoop α ρ σ) : Prop :=
  P.workers ≤ s.inFlight.length ∨ s.todo = [] ∨ P.stop s.acc = true

instance (P : Params α ρ σ) (s : JoinLoop α ρ σ) : Decidable (Draining P s) :=
  have : Decidable (s.todo = []) := decidable_of_iff (s.todo.isEmpty = true) List.isEmpty_iff
  inferInstanceAs (Decidable (_ ∨ _ ∨ _))

/-- What joining the `i`-th task in flight leaves. -/
def joinAt (P : Params α ρ σ) (s : JoinLoop α ρ σ) (i : Nat) (a : α) (r : ρ) : JoinLoop α ρ σ where
  todo := s.todo
  inFlight := s.inFlight.eraseIdx i
  joined := s.joined ++ [(a, r)]
  acc := P.report s.acc (a, r)

def step (P : Params α ρ σ) (s : JoinLoop α ρ σ) :
    Event ρ → Option (JoinLoop α ρ σ)
  | .spawn =>
    if Draining P s then none
    else
      match s.todo with
      | [] => none
      | a :: rest => some { s with todo := rest, inFlight := s.inFlight ++ [a] }
  | .join i r => if Draining P s then (s.inFlight[i]?).map fun a => s.joinAt P i a r else none

/-- The loop is over: everything spawned is joined, and nothing more is spawned. -/
def Finished (P : Params α ρ σ) (s : JoinLoop α ρ σ) : Prop :=
  s.inFlight = [] ∧ (s.todo = [] ∨ P.stop s.acc = true)

instance (P : Params α ρ σ) (s : JoinLoop α ρ σ) : Decidable (Finished P s) :=
  have : Decidable (s.inFlight = []) := decidable_of_iff (s.inFlight.isEmpty = true) List.isEmpty_iff
  have : Decidable (s.todo = []) := decidable_of_iff (s.todo.isEmpty = true) List.isEmpty_iff
  inferInstanceAs (Decidable (_ ∧ (_ ∨ _)))

variable {P : Params α ρ σ} {s s' : JoinLoop α ρ σ}

/-- What a step can do. -/
theorem step_cases {e : Event ρ} (h : step P s e = some s') :
    (∃ a, e = .spawn ∧ s.inFlight.length < P.workers ∧ P.stop s.acc = false ∧
        s.todo = a :: s'.todo ∧ s' = { s with todo := s'.todo, inFlight := s.inFlight ++ [a] }) ∨
      ∃ i a r, e = .join i r ∧ Draining P s ∧ s.inFlight[i]? = some a ∧ s' = s.joinAt P i a r := by
  cases e with
  | spawn =>
    simp only [step] at h
    split at h
    · cases h
    · rename_i hdrain
      have hroom : s.inFlight.length < P.workers := by
        by_contra hge
        exact hdrain (Or.inl (Nat.le_of_not_lt hge))
      have hstop : P.stop s.acc = false := by
        by_contra hstop
        exact hdrain (Or.inr (Or.inr (by simpa using hstop)))
      split at h
      · cases h
      · rename_i a rest htodo
        obtain rfl := Option.some.inj h
        exact Or.inl ⟨a, rfl, hroom, hstop, htodo, rfl⟩
  | join i r =>
    simp only [step] at h
    split at h
    · rename_i hdrain
      obtain ⟨a, ha, rfl⟩ := Option.map_eq_some_iff.mp h
      exact Or.inr ⟨i, a, r, rfl, hdrain, ha, rfl⟩
    · cases h

/-! ## Accounting -/

/-- The items are those spawned so far and those to come; each one spawned is in
flight or has been joined once, its result having been reported. -/
structure Accounted (P : Params α ρ σ) (items : List α) (acc : σ) (s : JoinLoop α ρ σ) : Prop where
  split : ∃ spawned, items = spawned ++ s.todo ∧ (s.inFlight ++ s.joined.map Prod.fst).Perm spawned
  acc_eq : s.acc = s.joined.foldl P.report acc
  bounded : s.inFlight.length ≤ P.workers

theorem accounted_init (P : Params α ρ σ) (items : List α) (acc : σ) :
    Accounted P items acc { todo := items, acc := acc } :=
  ⟨⟨[], rfl, List.Perm.refl _⟩, rfl, Nat.zero_le _⟩

theorem perm_eraseIdx {l : List α} {i : Nat} {a : α} (h : l[i]? = some a) :
    (a :: l.eraseIdx i).Perm l := by
  obtain ⟨hi, rfl⟩ := List.getElem?_eq_some_iff.mp h
  exact List.getElem_cons_eraseIdx_perm hi

theorem step_accounted {items : List α} {acc : σ} {e : Event ρ} (h : step P s e = some s')
    (hs : Accounted P items acc s) : Accounted P items acc s' := by
  obtain ⟨spawned, hitems, hperm⟩ := hs.split
  obtain ⟨a, -, hroom, -, htodo, hs'⟩ | ⟨i, a, r, -, -, ha, rfl⟩ := step_cases h
  · -- the spawned item is the next one
    rw [hs']
    refine ⟨⟨spawned ++ [a], ?_, ?_⟩, hs.acc_eq, ?_⟩
    · rw [hitems, htodo, List.append_assoc, List.singleton_append]
    · show (s.inFlight ++ [a] ++ s.joined.map Prod.fst).Perm (spawned ++ [a])
      rw [List.append_assoc]
      refine List.Perm.trans (List.Perm.append_left _ List.perm_append_comm) ?_
      rw [← List.append_assoc]
      exact hperm.append_right [a]
    · show (s.inFlight ++ [a]).length ≤ P.workers
      rw [List.length_append, List.length_singleton]
      exact hroom
  · refine ⟨⟨spawned, hitems, ?_⟩, ?_, ?_⟩
    · show (s.inFlight.eraseIdx i ++ (s.joined ++ [(a, r)]).map Prod.fst).Perm spawned
      rw [List.map_append, List.map_singleton, ← List.append_assoc]
      refine List.Perm.trans List.perm_append_comm ?_
      refine List.Perm.trans ?_ hperm
      exact (perm_eraseIdx ha).append_right (s.joined.map Prod.fst)
    · show P.report s.acc (a, r) = (s.joined ++ [(a, r)]).foldl P.report acc
      rw [List.foldl_append, ← hs.acc_eq]
      rfl
    · show (s.inFlight.eraseIdx i).length ≤ P.workers
      exact Nat.le_trans (List.length_eraseIdx_le ..) hs.bounded

/-- **Accounting holds along every run.** -/
theorem run_accounted {items : List α} {acc : σ} {es : List (Event ρ)}
    (h : Machine.run (step P) { todo := items, acc := acc } es = some s) : Accounted P items acc s :=
  Machine.run_invariant (fun _ _ _ => step_accounted) h (accounted_init P items acc)

/-- A loop that ends without having stopped has joined each item once. -/
theorem Accounted.perm_of_finished {items : List α} {acc : σ} (hs : Accounted P items acc s)
    (hf : Finished P s) (hstop : P.stop s.acc = false) : (s.joined.map Prod.fst).Perm items := by
  obtain ⟨spawned, hitems, hperm⟩ := hs.split
  have htodo : s.todo = [] := by
    rcases hf.2 with htodo | h
    · exact htodo
    · rw [hstop] at h
      cases h
  rw [hf.1, List.nil_append] at hperm
  rw [hitems, htodo, List.append_nil]
  exact hperm

/-! ## Progress -/

/-- The steps that are left at most. -/
def remaining (s : JoinLoop α ρ σ) : Nat := 2 * s.todo.length + s.inFlight.length

theorem step_remaining {e : Event ρ} (h : step P s e = some s') : s'.remaining < s.remaining := by
  obtain ⟨a, -, -, -, htodo, hs'⟩ | ⟨i, a, r, -, -, ha, rfl⟩ := step_cases h
  · have hlen := congrArg List.length htodo
    have hin : s'.inFlight.length = s.inFlight.length + 1 := by
      rw [hs', List.length_append, List.length_singleton]
    simp only [List.length_cons] at hlen
    unfold remaining
    omega
  · obtain ⟨hi, -⟩ := List.getElem?_eq_some_iff.mp ha
    have hin : (s.inFlight.eraseIdx i).length = s.inFlight.length - 1 :=
      List.length_eraseIdx_of_lt hi
    show 2 * s.todo.length + (s.inFlight.eraseIdx i).length < s.remaining
    unfold remaining
    omega

/-- A loop that is not over can go on, whichever results its tasks have. -/
theorem exists_step (hworkers : 0 < P.workers) (hf : ¬ Finished P s) (result : α → ρ) :
    ∃ e s', step P s e = some s' ∧ ∀ i r, e = .join i r → ∃ a, s.inFlight[i]? = some a ∧ r = result a := by
  by_cases hdrain : Draining P s
  · -- draining with nothing in flight would be the end
    have hne : s.inFlight ≠ [] := by
      intro hnil
      apply hf
      refine ⟨hnil, ?_⟩
      rcases hdrain with hfull | htodo | hstop
      · rw [hnil] at hfull
        exact absurd hfull (Nat.not_le_of_lt hworkers)
      · exact Or.inl htodo
      · exact Or.inr hstop
    obtain ⟨a, rest, hin⟩ := List.exists_cons_of_ne_nil hne
    have ha : s.inFlight[0]? = some a := by rw [hin]; rfl
    refine ⟨.join 0 (result a), s.joinAt P 0 a (result a), ?_, ?_⟩
    · simp [step, hdrain, ha]
    · intro i r h
      obtain ⟨rfl, rfl⟩ := Event.join.inj h
      exact ⟨a, ha, rfl⟩
  · have hne : s.todo ≠ [] := fun hnil => hdrain (Or.inr (Or.inl hnil))
    obtain ⟨a, rest, htodo⟩ := List.exists_cons_of_ne_nil hne
    refine ⟨.spawn, { s with todo := rest, inFlight := s.inFlight ++ [a] }, ?_, ?_⟩
    · simp only [step, if_neg hdrain, htodo]
    · intro i r h
      cases h

end JoinLoop
