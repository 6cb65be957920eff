import Mathlib.Data.List.Basic

/-!
# Commands with state and errors

A command reads and changes a state and returns a value or an error; what it
changed before an error stays changed. `Triple` is the usual pre- and
postcondition for such commands, with a postcondition for each way to end, and
`Keeps` the special case of an invariant.
-/

/-- A computation in two stages returns when both do. -/
theorem Except.bind_eq_ok_iff {ε α β : Type} {x : Except ε α} {f : α → Except ε β} {b : β} :
    (x >>= f) = .ok b ↔ ∃ a, x = .ok a ∧ f a = .ok b := by
  cases x with
  | error e => simp [bind, Except.bind]
  | ok a => simp [bind, Except.bind]

/-- A command over the state `σ` with errors `ε`. -/
def Cmd (σ ε α : Type) := σ → Except ε α × σ

namespace Cmd

variable {σ ε α β γ : Type}

instance : Monad (Cmd σ ε) where
  pure a := fun s => (.ok a, s)
  bind m f := fun s =>
    match m s with
    | (.ok a, s') => f a s'
    | (.error e, s') => (.error e, s')

/-- End with an error. -/
def fail (e : ε) : Cmd σ ε α := fun s => (.error e, s)

/-- Read the state. -/
def get : Cmd σ ε σ := fun s => (.ok s, s)

/-- Change the state. -/
def modify (f : σ → σ) : Cmd σ ε Unit := fun s => (.ok (), f s)

/-- Return a result computed elsewhere. -/
def ofExcept (r : Except ε α) : Cmd σ ε α := fun s => (r, s)

/-- Run a command and return its result, error or not. -/
def attempt (m : Cmd σ ε α) : Cmd σ ε (Except ε α) := fun s => (.ok (m s).1, (m s).2)

/-- Run a command and report its error in other terms. -/
def mapError {ε' : Type} (f : ε → ε') (m : Cmd σ ε α) : Cmd σ ε' α := fun s =>
  ((m s).1.mapError f, (m s).2)

/-- Run a command for each element. -/
def forEach (f : α → Cmd σ ε Unit) : List α → Cmd σ ε Unit
  | [] => pure ()
  | a :: as => do
    f a
    forEach f as

/-! ## Running -/

@[simp] theorem pure_run (a : α) (s : σ) : (pure a : Cmd σ ε α) s = (.ok a, s) := rfl

@[simp] theorem fail_run (e : ε) (s : σ) : (fail e : Cmd σ ε α) s = (.error e, s) := rfl

@[simp] theorem get_run (s : σ) : (get : Cmd σ ε σ) s = (.ok s, s) := rfl

@[simp] theorem modify_run (f : σ → σ) (s : σ) : (modify f : Cmd σ ε Unit) s = (.ok (), f s) := rfl

@[simp] theorem ofExcept_run (r : Except ε α) (s : σ) : (ofExcept r : Cmd σ ε α) s = (r, s) := rfl

@[simp] theorem attempt_run (m : Cmd σ ε α) (s : σ) : attempt m s = (.ok (m s).1, (m s).2) := rfl

theorem bind_ok {m : Cmd σ ε α} {f : α → Cmd σ ε β} {s s' : σ} {a : α} (h : m s = (.ok a, s')) :
    (m >>= f) s = f a s' := by
  show (match m s with
    | (.ok a, s') => f a s'
    | (.error e, s') => (.error e, s')) = _
  rw [h]

theorem bind_error {m : Cmd σ ε α} {f : α → Cmd σ ε β} {s s' : σ} {e : ε}
    (h : m s = (.error e, s')) : (m >>= f) s = (.error e, s') := by
  show (match m s with
    | (.ok a, s') => f a s'
    | (.error e, s') => (.error e, s')) = _
  rw [h]

theorem bind_bind (m : Cmd σ ε α) (f : α → Cmd σ ε β) (g : β → Cmd σ ε γ) :
    (m >>= f) >>= g = m >>= fun a => f a >>= g := by
  funext s
  cases hms : m s with
  | mk r s' =>
    cases r with
    | ok a =>
      rw [bind_ok hms]
      have hrun : (m >>= f) s = f a s' := bind_ok hms
      show (match (m >>= f) s with
        | (.ok b, u) => g b u
        | (.error e, u) => (.error e, u)) = (f a >>= g) s'
      rw [hrun]
      rfl
    | error e =>
      rw [bind_error hms, bind_error (bind_error hms)]

/-- A command whose value is mapped. -/
theorem bind_pure_run (m : Cmd σ ε α) (f : α → β) (s : σ) :
    (m >>= fun a => pure (f a)) s = ((m s).1.map f, (m s).2) := by
  cases hms : m s with
  | mk r s' =>
    cases r with
    | ok a => exact bind_ok hms
    | error e => exact bind_error hms

@[simp] theorem get_bind (f : σ → Cmd σ ε β) (s : σ) : (get >>= f) s = f s s := rfl

@[simp] theorem modify_bind (g : σ → σ) (f : Unit → Cmd σ ε β) (s : σ) :
    (modify g >>= f) s = f () (g s) := rfl

@[simp] theorem pure_bind_run (a : α) (f : α → Cmd σ ε β) (s : σ) :
    ((pure a : Cmd σ ε α) >>= f) s = f a s := rfl

@[simp] theorem fail_bind (e : ε) (f : α → Cmd σ ε β) (s : σ) :
    ((fail e : Cmd σ ε α) >>= f) s = (.error e, s) := rfl

@[simp] theorem ofExcept_ok_bind (a : α) (f : α → Cmd σ ε β) (s : σ) :
    ((ofExcept (.ok a) : Cmd σ ε α) >>= f) s = f a s := rfl

@[simp] theorem attempt_bind (m : Cmd σ ε α) (f : Except ε α → Cmd σ ε β) (s : σ) :
    (attempt m >>= f) s = f (m s).1 (m s).2 := rfl

/-! ## Pre- and postconditions -/

/-- From a state with `P` the command returns with `Q` or fails with `E`. -/
def Triple (P : σ → Prop) (m : Cmd σ ε α) (Q : α → σ → Prop) (E : ε → σ → Prop) : Prop :=
  ∀ s, P s →
    match m s with
    | (.ok a, s') => Q a s'
    | (.error e, s') => E e s'

/-- The command keeps `I`, however it ends. -/
def Keeps (I : σ → Prop) (m : Cmd σ ε α) : Prop := Triple I m (fun _ => I) (fun _ => I)

variable {P P' : σ → Prop} {Q Q' : α → σ → Prop} {E E' : ε → σ → Prop} {I J : σ → Prop}

/-! ## Rules -/

theorem Triple.conseq {m : Cmd σ ε α} (h : Triple P m Q E) (hP : ∀ s, P' s → P s)
    (hQ : ∀ a s, Q a s → Q' a s) (hE : ∀ e s, E e s → E' e s) : Triple P' m Q' E' := by
  intro s hs
  have hm := h s (hP s hs)
  split <;> rename_i heq <;> rw [heq] at hm
  · exact hQ _ _ hm
  · exact hE _ _ hm

theorem triple_pure {a : α} (h : ∀ s, P s → Q a s) : Triple P (pure a : Cmd σ ε α) Q E :=
  h

theorem triple_fail {e : ε} (h : ∀ s, P s → E e s) : Triple P (fail e : Cmd σ ε α) Q E :=
  h

theorem triple_get {Q : σ → σ → Prop} (h : ∀ s, P s → Q s s) :
    Triple P (get : Cmd σ ε σ) Q E :=
  h

theorem triple_modify {f : σ → σ} {Q : Unit → σ → Prop} (h : ∀ s, P s → Q () (f s)) :
    Triple P (modify f : Cmd σ ε Unit) Q E :=
  h

theorem triple_ofExcept {r : Except ε α} (hok : ∀ a s, r = .ok a → P s → Q a s)
    (herr : ∀ e s, r = .error e → P s → E e s) : Triple P (ofExcept r) Q E := by
  intro s hs
  cases r with
  | ok a => exact hok a s rfl hs
  | error e => exact herr e s rfl hs

theorem Triple.bind {m : Cmd σ ε α} {f : α → Cmd σ ε β} {R : β → σ → Prop} (hm : Triple P m Q E)
    (hf : ∀ a, Triple (Q a) (f a) R E) : Triple P (m >>= f) R E := by
  intro s hs
  have h := hm s hs
  show match (match m s with
    | (.ok a, s') => f a s'
    | (.error e, s') => (.error e, s')) with
    | (.ok a, s') => R a s'
    | (.error e, s') => E e s'
  cases hms : m s with
  | mk r s' =>
    rw [hms] at h
    cases r with
    | ok a => exact hf a s' h
    | error e => exact h

theorem Triple.attempt {m : Cmd σ ε α} {Q : Except ε α → σ → Prop} (h : Triple P m (fun a => Q (.ok a))
    (fun e => Q (.error e))) : Triple P (Cmd.attempt m) Q E := by
  intro s hs
  have hm := h s hs
  show Q (m s).1 (m s).2
  cases hms : m s with
  | mk r s' =>
    rw [hms] at hm
    cases r <;> exact hm

/-- A loop whose assertion says which elements are done. -/
theorem triple_forEach {f : α → Cmd σ ε Unit} {R : List α → σ → Prop} {as : List α}
    (h : ∀ done a rest, as = done ++ a :: rest →
      Triple (R done) (f a) (fun _ => R (done ++ [a])) E) :
    Triple (R []) (forEach f as) (fun _ => R as) E := by
  have hgo : ∀ rest done, as = done ++ rest → Triple (R done) (forEach f rest) (fun _ => R as) E := by
    intro rest
    induction rest with
    | nil =>
      intro done hsplit
      rw [hsplit, List.append_nil]
      exact triple_pure fun _ hs => hs
    | cons a rest ih =>
      intro done hsplit
      refine Triple.bind (h done a rest hsplit) ?_
      intro _
      exact ih (done ++ [a]) (by rw [hsplit, List.append_assoc, List.singleton_append])
  exact hgo as [] rfl

/-! ## Invariants -/

theorem keeps_pure (a : α) : Keeps I (pure a : Cmd σ ε α) := triple_pure fun _ h => h

theorem keeps_fail (e : ε) : Keeps I (fail e : Cmd σ ε α) := triple_fail fun _ h => h

theorem keeps_get : Keeps I (get : Cmd σ ε σ) := triple_get fun _ h => h

theorem keeps_modify {f : σ → σ} (h : ∀ s, I s → I (f s)) : Keeps I (modify f : Cmd σ ε Unit) :=
  triple_modify h

theorem keeps_ofExcept (r : Except ε α) : Keeps I (ofExcept r : Cmd σ ε α) :=
  triple_ofExcept (fun _ _ _ h => h) (fun _ _ _ h => h)

theorem Keeps.bind {m : Cmd σ ε α} {f : α → Cmd σ ε β} (hm : Keeps I m) (hf : ∀ a, Keeps I (f a)) :
    Keeps I (m >>= f) :=
  Triple.bind hm hf

/-- Handing on what a command returned changes nothing. -/
theorem Keeps.bind_pure {m : Cmd σ ε α} (h : Keeps I m) {g : α → β} :
    Keeps I (m >>= fun a => pure (g a)) :=
  h.bind fun _ => keeps_pure _

theorem Keeps.attempt {m : Cmd σ ε α} (h : Keeps I m) : Keeps I (Cmd.attempt m) :=
  Triple.attempt h

theorem Keeps.mapError {ε' : Type} {m : Cmd σ ε α} (h : Keeps I m) (f : ε → ε') :
    Keeps I (Cmd.mapError f m) := by
  intro s hs
  have hm := h s hs
  unfold Cmd.mapError
  cases hms : m s with
  | mk r s' =>
    rw [hms] at hm
    cases r <;> exact hm

theorem keeps_forEach {f : α → Cmd σ ε Unit} (as : List α) (h : ∀ a ∈ as, Keeps I (f a)) :
    Keeps I (forEach f as) := by
  induction as with
  | nil => exact keeps_pure ()
  | cons a as ih =>
    refine Keeps.bind (h a List.mem_cons_self) ?_
    intro _
    exact ih fun b hb => h b (List.mem_cons_of_mem a hb)

/-- The invariant after a command, whatever it returned. -/
theorem Keeps.snd {m : Cmd σ ε α} (h : Keeps I m) {s : σ} (hs : I s) : I (m s).2 := by
  have hm := h s hs
  cases hms : m s with
  | mk r s' =>
    rw [hms] at hm
    cases r <;> exact hm

theorem keeps_of_snd {m : Cmd σ ε α} (h : ∀ s, I s → I (m s).2) : Keeps I m := by
  intro s hs
  have hm := h s hs
  cases hms : m s with
  | mk r s' =>
    rw [hms] at hm
    cases r <;> exact hm

/-! ## Values -/

/-- What the command returns satisfies `Q`, from whatever state it starts. -/
def Yields (m : Cmd σ ε α) (Q : α → Prop) : Prop := ∀ s a, (m s).1 = .ok a → Q a

theorem yields_pure {a : α} {Q : α → Prop} (h : Q a) : Yields (pure a : Cmd σ ε α) Q := by
  intro s b hb
  obtain rfl := Except.ok.inj hb
  exact h

theorem yields_fail (e : ε) (Q : α → Prop) : Yields (fail e : Cmd σ ε α) Q := nofun

theorem Yields.bind {m : Cmd σ ε α} {f : α → Cmd σ ε β} {Q : α → Prop} {R : β → Prop}
    (hm : Yields m Q) (hf : ∀ a, Q a → Yields (f a) R) : Yields (m >>= f) R := by
  intro s b hb
  cases hms : m s with
  | mk r s' =>
    cases r with
    | ok a =>
      rw [bind_ok hms] at hb
      exact hf a (hm s a (by rw [hms])) s' b hb
    | error e =>
      rw [bind_error hms] at hb
      cases hb

theorem yields_true (m : Cmd σ ε α) : Yields m fun _ => True := fun _ _ _ => trivial

/-- The rest of a command may use what the first part returned. -/
theorem Keeps.bind_yields {m : Cmd σ ε α} {f : α → Cmd σ ε β} {Q : α → Prop} (hm : Keeps I m)
    (hq : Yields m Q) (hf : ∀ a, Q a → Keeps I (f a)) : Keeps I (m >>= f) := by
  apply keeps_of_snd
  intro s hs
  have hI := hm.snd hs
  cases hms : m s with
  | mk r s' =>
    rw [hms] at hI
    cases r with
    | ok a =>
      rw [bind_ok hms]
      exact (hf a (hq s a (by rw [hms]))).snd hI
    | error e =>
      rw [bind_error hms]
      exact hI

end Cmd
