import Rs5cmd.Lib.Hoare

/-!
# Commands in atomic steps

A thread is a command cut into the steps that other threads can come between: each
reads and changes the shared state at once and decides how to go on. Run on its own
it is a command again.

Two questions about what a thread may still do, from whatever states it is resumed
in: whether all the steps it has left stay within a relation (`Within`), and whether
each way to return passes through a step that establishes an assertion (`Passes`).
-/

open Cmd

inductive Thread (σ ε α : Type) where
  | done (r : Except ε α)
  | act (change : σ → σ) (next : σ → Thread σ ε α)

namespace Thread

variable {σ ε α β γ : Type}

/-- A command as one step. -/
def atom (m : Cmd σ ε α) : Thread σ ε α := .act (fun s => (m s).2) fun s => .done (m s).1

def bind : Thread σ ε α → (α → Thread σ ε β) → Thread σ ε β
  | .done (.ok a), f => f a
  | .done (.error e), _ => .done (.error e)
  | .act change next, f => .act change fun s => (next s).bind f

instance : Monad (Thread σ ε) where
  pure a := .done (.ok a)
  bind := bind

/-- A thread for each element, one after the other. -/
def forEach (f : α → Thread σ ε Unit) : List α → Thread σ ε Unit
  | [] => pure ()
  | a :: as => do
    f a
    forEach f as

/-! ## Running alone -/

/-- The thread without others in between. -/
def run : Thread σ ε α → Cmd σ ε α
  | .done r => fun s => (r, s)
  | .act change next => fun s => (next s).run (change s)

@[simp] theorem run_atom (m : Cmd σ ε α) : (atom m).run = m := rfl

@[simp] theorem run_pure (a : α) : (pure a : Thread σ ε α).run = pure a := rfl

@[simp] theorem run_error (e : ε) : (.done (.error e) : Thread σ ε α).run = fail e := rfl

@[simp] theorem run_bind (t : Thread σ ε α) (f : α → Thread σ ε β) :
    (t >>= f).run = t.run >>= fun a => (f a).run := by
  funext s
  show (t.bind f).run s = _
  induction t generalizing s with
  | done r =>
    cases r with
    | ok a => rfl
    | error e => rfl
  | act change next ih => exact ih s (change s)

theorem run_forEach (f : α → Thread σ ε Unit) (as : List α) :
    (forEach f as).run = Cmd.forEach (fun a => (f a).run) as := by
  induction as with
  | nil => rfl
  | cons a as ih =>
    show (f a >>= fun _ => forEach f as).run = _
    rw [run_bind, ih]
    rfl

/-! ## What is left to do -/

/-- Every step that is left stays within `R`. -/
def Within (R : σ → σ → Prop) : Thread σ ε α → Prop
  | .done _ => True
  | .act change next => (∀ s, R s (change s)) ∧ ∀ s, (next s).Within R

/-- Each way to return a value passes through a step that establishes `P`. -/
def Passes (P : σ → Prop) : Thread σ ε α → Prop
  | .done (.ok _) => False
  | .done (.error _) => True
  | .act change next => (∀ s, P (change s)) ∨ ∀ s, (next s).Passes P

variable {R : σ → σ → Prop} {P : σ → Prop} {t : Thread σ ε α} {f : α → Thread σ ε β}

theorem within_pure (a : α) : (pure a : Thread σ ε α).Within R := trivial

theorem within_atom {m : Cmd σ ε α} (h : ∀ s, R s (m s).2) : (atom m).Within R :=
  ⟨h, fun _ => trivial⟩

theorem Within.bind (ht : t.Within R) (hf : ∀ a, (f a).Within R) : (t >>= f).Within R := by
  show (t.bind f).Within R
  induction t with
  | done r =>
    cases r with
    | ok a => exact hf a
    | error e => trivial
  | act change next ih => exact ⟨ht.1, fun s => ih s (ht.2 s)⟩

theorem within_forEach {f : α → Thread σ ε Unit} (h : ∀ a, (f a).Within R) (as : List α) :
    (forEach f as).Within R := by
  induction as with
  | nil => trivial
  | cons a as ih => exact Within.bind (h a) fun _ => ih

theorem passes_atom {m : Cmd σ ε α} (h : ∀ s, P (m s).2) : (atom m).Passes P := Or.inl h

theorem Passes.bind_left (ht : t.Passes P) : (t >>= f).Passes P := by
  show (t.bind f).Passes P
  induction t with
  | done r =>
    cases r with
    | ok a => exact absurd ht (by simp [Passes])
    | error e => trivial
  | act change next ih =>
    rcases ht with hP | hnext
    · exact Or.inl hP
    · exact Or.inr fun s => ih s (hnext s)

theorem Passes.bind_right (hf : ∀ a, (f a).Passes P) : (t >>= f).Passes P := by
  show (t.bind f).Passes P
  induction t with
  | done r =>
    cases r with
    | ok a => exact hf a
    | error e => trivial
  | act change next ih => exact Or.inr fun s => ih s

end Thread
