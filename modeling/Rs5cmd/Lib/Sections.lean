import Mathlib.Data.List.Flatten

/-!
# Documents in sections

Some of the items of a list start a section; each section goes on to the next start.
What stands before the first start is the preamble. Every list is such a document in
exactly one way: `parse` and `Document.items` are inverse to each other.
-/

namespace Sections

variable {α : Type}

/-- An item that starts a section and the items after it that do not. -/
@[ext]
structure Block (starts : α → Prop) where
  head : α
  body : List α
  head_starts : starts head
  body_plain : ∀ x ∈ body, ¬ starts x

/-- A preamble and sections. -/
@[ext]
structure Document (starts : α → Prop) where
  preamble : List α
  sections : List (Block starts)
  plain : ∀ x ∈ preamble, ¬ starts x

variable {starts : α → Prop}

def Block.items (b : Block starts) : List α := b.head :: b.body

theorem Block.items_injective {b c : Block starts} (h : b.items = c.items) : b = c := by
  obtain ⟨hhead, hbody⟩ := List.cons.inj h
  exact Block.ext hhead hbody

def Document.items (d : Document starts) : List α := d.preamble ++ d.sections.flatMap Block.items

section Parse

variable [DecidablePred starts]

/-- An item in front of a document. -/
def Document.push (x : α) (d : Document starts) : Document starts :=
  if h : starts x then
    { preamble := []
      sections := { head := x, body := d.preamble, head_starts := h, body_plain := d.plain } ::
        d.sections
      plain := fun _ hx => absurd hx List.not_mem_nil }
  else
    { preamble := x :: d.preamble
      sections := d.sections
      plain := by
        intro y hy
        rcases List.mem_cons.mp hy with rfl | hy
        · exact h
        · exact d.plain y hy }

/-- The document a list is. -/
def parse (starts : α → Prop) [DecidablePred starts] : List α → Document starts
  | [] => { preamble := [], sections := [], plain := fun _ hx => absurd hx List.not_mem_nil }
  | x :: xs => (parse starts xs).push x

theorem items_push (x : α) (d : Document starts) : (d.push x).items = x :: d.items := by
  unfold Document.push
  split
  · rfl
  · rfl

theorem items_parse (xs : List α) : (parse starts xs).items = xs := by
  induction xs with
  | nil => rfl
  | cons x xs ih => rw [parse, items_push, ih]

theorem push_of_not_starts {x : α} (hx : ¬ starts x) (d : Document starts) :
    (d.push x).preamble = x :: d.preamble ∧ (d.push x).sections = d.sections := by
  rw [Document.push, dif_neg hx]
  exact ⟨rfl, rfl⟩

theorem parse_append_plain {xs : List α} (hxs : ∀ x ∈ xs, ¬ starts x) (ys : List α) :
    (parse starts (xs ++ ys)).preamble = xs ++ (parse starts ys).preamble ∧
      (parse starts (xs ++ ys)).sections = (parse starts ys).sections := by
  induction xs with
  | nil => exact ⟨rfl, rfl⟩
  | cons x xs ih =>
    obtain ⟨hpre, hsec⟩ := ih fun y hy => hxs y (List.mem_cons_of_mem x hy)
    obtain ⟨hpushPre, hpushSec⟩ :=
      push_of_not_starts (hxs x List.mem_cons_self) (parse starts (xs ++ ys))
    exact ⟨hpushPre.trans (congrArg (x :: ·) hpre), hpushSec.trans hsec⟩

theorem parse_flatMap (bs : List (Block starts)) :
    parse starts (bs.flatMap Block.items) =
      { preamble := [], sections := bs, plain := fun _ hx => absurd hx List.not_mem_nil } := by
  induction bs with
  | nil => rfl
  | cons b bs ih =>
    obtain ⟨hpre, hsec⟩ := parse_append_plain b.body_plain (bs.flatMap Block.items)
    rw [ih] at hpre hsec
    rw [List.flatMap_cons, Block.items, List.cons_append, parse, Document.push,
      dif_pos b.head_starts]
    refine Document.ext rfl ?_
    exact List.cons_eq_cons.mpr ⟨Block.ext rfl (hpre.trans (List.append_nil _)), hsec⟩

/-- **A document is read back from its items.** -/
theorem parse_items (d : Document starts) : parse starts d.items = d := by
  obtain ⟨hpre, hsec⟩ := parse_append_plain d.plain (d.sections.flatMap Block.items)
  rw [parse_flatMap] at hpre hsec
  exact Document.ext (hpre.trans (List.append_nil _)) hsec

end Parse

end Sections
