import Rs5cmd.Str

/-!
# The lines of a text

`str::lines`: a line ends at a line feed, and a carriage return before the line feed is
not part of it. A last line without a line feed counts if it is not empty, and keeps its
carriage return.
-/

namespace Rs5cmd

namespace Str

/-- A line without the carriage return at its end. -/
def chompCr (l : Str) : Str := if endsWith '\r' l then l.dropLast else l

/-- `s.lines()`. -/
def lines (s : Str) : List Str :=
  let parts := split '\n' s
  parts.dropLast.map chompCr ++ if parts.getLastD [] = [] then [] else [parts.getLastD []]

/-- A text of lines that all end in a line feed. -/
def unlines (ls : List Str) : Str := ls.flatMap (· ++ ['\n'])

variable {l r s : Str}

theorem chompCr_of_not_endsWith (h : endsWith '\r' l = false) : chompCr l = l := by
  rw [chompCr, if_neg (by rw [h]; exact Bool.false_ne_true)]

/-- A line ends in a carriage return or is what it is without one. -/
theorem chompCr_cases (l : Str) : chompCr l = l ∧ endsWith '\r' l = false ∨ l = chompCr l ++ ['\r'] := by
  cases h : endsWith '\r' l with
  | false => exact Or.inl ⟨chompCr_of_not_endsWith h, rfl⟩
  | true =>
    right
    have hlast : l.getLast? = some '\r' := by simpa [endsWith] using h
    rw [chompCr, if_pos h, List.dropLast_append_getLast? _ hlast]

theorem chompCr_eq_self_iff : chompCr l = l ↔ endsWith '\r' l = false := by
  rcases chompCr_cases l with ⟨heq, hend⟩ | heq
  · simp [heq, hend]
  · constructor
    · intro hself
      rw [hself] at heq
      exact absurd (List.self_eq_append_right.mp heq) (List.cons_ne_nil _ _)
    · exact chompCr_of_not_endsWith

theorem not_mem_chompCr {c : Char} (h : c ∉ l) : c ∉ chompCr l := by
  unfold chompCr
  split
  · exact fun hmem => h (List.mem_of_mem_dropLast hmem)
  · exact h

/-! ## Trimming -/

theorem trim_concat_of_isWhitespace {c : Char} (hc : isWhitespace c = true) (l : Str) :
    trim (l ++ [c]) = trim l := by
  rw [trim, trim, List.dropWhile_append]
  split
  · rename_i hall
    rw [List.isEmpty_iff.mp hall, List.dropWhile_cons_of_pos hc]
    rfl
  · exact List.rdropWhile_concat_pos _ _ _ hc

/-- The carriage return is cut off by trimming anyway. -/
theorem trim_chompCr (l : Str) : trim (chompCr l) = trim l := by
  rcases chompCr_cases l with ⟨heq, -⟩ | heq
  · rw [heq]
  · conv_rhs => rw [heq]
    exact (trim_concat_of_isWhitespace (by decide) _).symm

/-! ## Reading lines -/

@[simp] theorem lines_nil : lines [] = [] := by decide

theorem split_of_not_mem {c : Char} (h : c ∉ s) : split c s = [s] := by
  rw [split, List.splitOn_eq_singleton h]

theorem lines_line (h : '\n' ∉ l) (s : Str) : lines (l ++ '\n' :: s) = chompCr l :: lines s := by
  have hsplit : split '\n' (l ++ '\n' :: s) = l :: split '\n' s := by
    have happend : split '\n' (l ++ '\n' :: s) = split '\n' l ++ split '\n' s :=
      List.splitOn_append_cons_self l s
    rw [happend, split_of_not_mem h, List.singleton_append]
  have hne : split '\n' s ≠ [] := List.splitOn_ne_nil '\n' s
  rw [lines, hsplit, lines]
  obtain ⟨x, xs, hxs⟩ := List.exists_cons_of_ne_nil hne
  simp [hxs]

theorem lines_last (h : '\n' ∉ s) (hne : s ≠ []) : lines s = [s] := by
  rw [lines, split_of_not_mem h]
  simp [hne]

/-- A text is empty, a line without a line feed, or a line in front of a text. -/
theorem line_induction {P : Str → Prop} (nil : P []) (last : ∀ s, s ≠ [] → '\n' ∉ s → P s)
    (line : ∀ l s, '\n' ∉ l → P s → P (l ++ '\n' :: s)) (s : Str) : P s := by
  induction hn : s.length using Nat.strong_induction_on generalizing s with
  | _ n ih =>
    by_cases hmem : '\n' ∈ s
    · obtain ⟨l, rest, rfl, hl⟩ := List.eq_append_cons_of_mem hmem
      refine line l rest hl (ih rest.length ?_ rest rfl)
      rw [← hn, List.length_append, List.length_cons]
      omega
    · by_cases hs : s = []
      · rw [hs]
        exact nil
      · exact last s hs hmem

theorem not_mem_of_mem_lines (h : l ∈ lines s) : '\n' ∉ l := by
  induction s using line_induction with
  | nil => cases h
  | last s hne hs =>
    rw [lines_last hs hne] at h
    rw [List.mem_singleton.mp h]
    exact hs
  | line k s hk ih =>
    rw [lines_line hk] at h
    rcases List.mem_cons.mp h with rfl | h
    · exact not_mem_chompCr hk
    · exact ih h

theorem endsWith_line (l s : Str) :
    endsWith '\n' (l ++ '\n' :: s) = true ↔ s = [] ∨ endsWith '\n' s = true := by
  cases s with
  | nil => simp [endsWith]
  | cons c s =>
    rw [endsWith_append _ _ (List.cons_ne_nil _ _)]
    simp [endsWith, List.getLast?_cons_cons]

/-- After a line feed the lines start anew. -/
theorem lines_append (h : r = [] ∨ endsWith '\n' r = true) (s : Str) :
    lines (r ++ s) = lines r ++ lines s := by
  induction r using line_induction with
  | nil => rfl
  | last r hne hr =>
    have hend := h.resolve_left hne
    rw [endsWith_of_not_mem hr] at hend
    cases hend
  | line l r hl ih =>
    have hr : r = [] ∨ endsWith '\n' r = true := (endsWith_line l r).mp (h.resolve_left (by simp))
    rw [List.append_assoc, List.cons_append, lines_line hl, lines_line hl, ih hr,
      List.cons_append]

theorem unlines_cons (l : Str) (ls : List Str) : unlines (l :: ls) = l ++ '\n' :: unlines ls := by
  rw [unlines, List.flatMap_cons, List.append_assoc]
  rfl

theorem unlines_eq_nil_or (ls : List Str) : unlines ls = [] ∨ endsWith '\n' (unlines ls) = true := by
  induction ls with
  | nil => exact Or.inl rfl
  | cons l ls ih =>
    rw [unlines_cons]
    exact Or.inr ((endsWith_line l _).mpr ih)

theorem lines_unlines {ls : List Str} (h : ∀ l ∈ ls, '\n' ∉ l) :
    lines (unlines ls) = ls.map chompCr := by
  induction ls with
  | nil => rfl
  | cons l ls ih =>
    rw [unlines_cons, lines_line (h l List.mem_cons_self),
      ih fun k hk => h k (List.mem_cons_of_mem l hk), List.map_cons]

/-- With the line feed it lacks, a text reads as before but for a carriage return at its
end. -/
theorem lines_concat_newline (hne : s ≠ []) (hend : endsWith '\n' s = false) :
    ∃ pre last, lines s = pre ++ [last] ∧ lines (s ++ ['\n']) = pre ++ [chompCr last] ∧
      last.getLast? = s.getLast? := by
  induction s using line_induction with
  | nil => exact absurd rfl hne
  | last s _ hs => exact ⟨[], s, lines_last hs hne, lines_line hs [], rfl⟩
  | line l s hl ih =>
    have hnot : ¬ (s = [] ∨ endsWith '\n' s = true) := fun h => by
      rw [(endsWith_line l s).mpr h] at hend
      cases hend
    obtain ⟨hs, hsend⟩ := not_or.mp hnot
    obtain ⟨pre, last, hlines, hlines', hlast⟩ := ih hs (Bool.eq_false_iff.mpr hsend)
    refine ⟨chompCr l :: pre, last, ?_, ?_, ?_⟩
    · rw [lines_line hl, hlines, List.cons_append]
    · rw [List.append_assoc, List.cons_append, lines_line hl, hlines', List.cons_append]
    · obtain ⟨c, cs, rfl⟩ := List.exists_cons_of_ne_nil hs
      rw [hlast, List.getLast?_append, List.getLast?_cons_cons, List.getLast?_cons, Option.some_or]

end Str

end Rs5cmd
