import Mathlib.Data.List.Basic

/-!
# Programs that ask questions

A program asks a question, goes on with whatever it is answered, and returns a value
in the end. `Only` is about every way the answers can be, and `Returns` about some
way: what a sequence of two programs asks is what the first asks, and what the second
asks from each value that the first may return.
-/

inductive Asks (Q A α : Type) where
  | done (a : α)
  | ask (q : Q) (next : A → Asks Q A α)

namespace Asks

variable {Q A α β : Type}

def bind : Asks Q A α → (α → Asks Q A β) → Asks Q A β
  | .done a, f => f a
  | .ask q next, f => .ask q fun x => (next x).bind f

instance : Monad (Asks Q A) where
  pure := .done
  bind := bind

/-- One question. -/
def question (q : Q) : Asks Q A A := .ask q .done

/-- The second program follows if the first comes to `true`. -/
def also (p q : Asks Q A Bool) : Asks Q A Bool := do
  if ← p then q else return false

/-- A program for each element; whether all of them come to `true`. -/
def all (f : α → Asks Q A Bool) : List α → Asks Q A Bool
  | [] => pure true
  | x :: xs => do
    let a ← f x
    let b ← all f xs
    return a && b

/-- Only questions with `P` are asked, whatever the answers are. -/
def Only (P : Q → Prop) : Asks Q A α → Prop
  | .done _ => True
  | .ask q next => P q ∧ ∀ x, (next x).Only P

/-- With some answers, the value is returned. -/
def Returns : Asks Q A α → α → Prop
  | .done a, b => a = b
  | .ask _ next, b => ∃ x, (next x).Returns b

variable {P : Q → Prop}

@[simp] theorem only_pure (a : α) : (pure a : Asks Q A α).Only P := trivial

@[simp] theorem returns_pure (a b : α) : (pure a : Asks Q A α).Returns b ↔ a = b := Iff.rfl

@[simp] theorem only_question [Nonempty A] (q : Q) : (question q : Asks Q A A).Only P ↔ P q :=
  ⟨fun h => h.1, fun h => ⟨h, fun _ => trivial⟩⟩

@[simp] theorem returns_question (q : Q) (x : A) : (question q : Asks Q A A).Returns x :=
  ⟨x, rfl⟩

theorem only_bind (p : Asks Q A α) (f : α → Asks Q A β) :
    (p >>= f).Only P ↔ p.Only P ∧ ∀ a, p.Returns a → (f a).Only P := by
  show (p.bind f).Only P ↔ _
  induction p with
  | done a => exact ⟨fun h => ⟨trivial, fun b hb => hb ▸ h⟩, fun h => h.2 a rfl⟩
  | ask q next ih =>
    constructor
    · intro h
      refine ⟨⟨h.1, fun x => ((ih x).mp (h.2 x)).1⟩, ?_⟩
      rintro a ⟨x, hx⟩
      exact ((ih x).mp (h.2 x)).2 a hx
    · rintro ⟨⟨hq, hnext⟩, hf⟩
      exact ⟨hq, fun x => (ih x).mpr ⟨hnext x, fun a ha => hf a ⟨x, ha⟩⟩⟩

theorem returns_bind (p : Asks Q A α) (f : α → Asks Q A β) (b : β) :
    (p >>= f).Returns b ↔ ∃ a, p.Returns a ∧ (f a).Returns b := by
  show (p.bind f).Returns b ↔ _
  induction p with
  | done a => exact ⟨fun h => ⟨a, rfl, h⟩, fun ⟨a', ha, h⟩ => ha ▸ h⟩
  | ask q next ih =>
    constructor
    · rintro ⟨x, hx⟩
      obtain ⟨a, ha, hb⟩ := (ih x).mp hx
      exact ⟨a, ⟨x, ha⟩, hb⟩
    · rintro ⟨a, ⟨x, ha⟩, hb⟩
      exact ⟨x, (ih x).mpr ⟨a, ha, hb⟩⟩

theorem Only.bind {p : Asks Q A α} {f : α → Asks Q A β} (hp : p.Only P) (hf : ∀ a, (f a).Only P) :
    (p >>= f).Only P :=
  (only_bind p f).mpr ⟨hp, fun a _ => hf a⟩

theorem Only.also {p q : Asks Q A Bool} (hp : p.Only P) (hq : q.Only P) : (p.also q).Only P := by
  refine Only.bind hp fun b => ?_
  split
  · exact hq
  · trivial

/-- The second program's questions come up if the first may come to `true`. -/
theorem Only.of_also {p q : Asks Q A Bool} (h : (p.also q).Only P) :
    p.Only P ∧ (p.Returns true → q.Only P) := by
  obtain ⟨hp, hq⟩ := (only_bind _ _).mp h
  refine ⟨hp, fun htrue => ?_⟩
  have := hq true htrue
  simpa using this

/-- Every program returns under some answers. -/
theorem exists_returns [Nonempty A] (p : Asks Q A α) : ∃ a, p.Returns a := by
  induction p with
  | done a => exact ⟨a, rfl⟩
  | ask q next ih =>
    obtain ⟨x⟩ := ‹Nonempty A›
    obtain ⟨a, ha⟩ := ih x
    exact ⟨a, x, ha⟩

theorem only_all [Nonempty A] (f : α → Asks Q A Bool) (xs : List α) :
    (all f xs).Only P ↔ ∀ x ∈ xs, (f x).Only P := by
  induction xs with
  | nil => simp [all]
  | cons x xs ih =>
    rw [List.forall_mem_cons, all, only_bind]
    refine and_congr_right fun _ => ?_
    constructor
    · intro h
      obtain ⟨a, ha⟩ := exists_returns (f x)
      exact ih.mp ((only_bind _ _).mp (h a ha)).1
    · exact fun h a _ => Only.bind (ih.mpr h) fun _ => trivial

end Asks
