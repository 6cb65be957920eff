import Mathlib.Computability.Language

/-!
# Globs

A glob is a list of symbols: one given letter, any one letter, or any word. What it
stands for is the product of the languages of its symbols.
-/

namespace Glob

variable {α : Type*}

/-- A symbol of a glob. -/
inductive Sym (α : Type*) where
  | lit (a : α)
  | any
  | many
  deriving DecidableEq, Repr

/-- The words a symbol stands for. -/
def Sym.words : Sym α → Language α
  | .lit a => {[a]}
  | .any => {w | w.length = 1}
  | .many => ⊤

/-- The words a glob stands for. -/
def words (g : List (Sym α)) : Language α := (g.map Sym.words).prod

theorem mem_words_nil {w : List α} : w ∈ words ([] : List (Sym α)) ↔ w = [] := Language.mem_one w

theorem words_cons (s : Sym α) (g : List (Sym α)) : words (s :: g) = s.words * words g := by
  rw [words, List.map_cons, List.prod_cons, words]

theorem mem_words_lit {a : α} {g : List (Sym α)} {w : List α} :
    w ∈ words (.lit a :: g) ↔ ∃ v ∈ words g, w = a :: v := by
  rw [words_cons, Language.mem_mul]
  constructor
  · rintro ⟨u, rfl, v, hv, rfl⟩
    exact ⟨v, hv, rfl⟩
  · rintro ⟨v, hv, rfl⟩
    exact ⟨[a], rfl, v, hv, rfl⟩

theorem mem_words_any {g : List (Sym α)} {w : List α} :
    w ∈ words (.any :: g) ↔ ∃ a, ∃ v ∈ words g, w = a :: v := by
  rw [words_cons, Language.mem_mul]
  constructor
  · rintro ⟨u, hu, v, hv, rfl⟩
    obtain ⟨a, rfl⟩ := List.length_eq_one_iff.mp hu
    exact ⟨a, v, hv, rfl⟩
  · rintro ⟨a, v, hv, rfl⟩
    exact ⟨[a], rfl, v, hv, rfl⟩

theorem mem_words_many {g : List (Sym α)} {w : List α} :
    w ∈ words (.many :: g) ↔ ∃ u, ∃ v ∈ words g, w = u ++ v := by
  rw [words_cons, Language.mem_mul]
  constructor
  · rintro ⟨u, -, v, hv, rfl⟩
    exact ⟨u, v, hv, rfl⟩
  · rintro ⟨u, v, hv, rfl⟩
    exact ⟨u, trivial, v, hv, rfl⟩

end Glob
