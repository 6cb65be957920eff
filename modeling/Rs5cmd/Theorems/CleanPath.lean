import Rs5cmd.Storage.Path

/-!
# `clean_path` is a normal form

A path string is clean if it is `.`, `/`, or names after a few leading `..`, which a
rooted path does not have. `clean_path` makes every path clean without moving it, and
leaves alone exactly the paths that are clean. The joins of three paths follow the same
moves from the same start, whichever two are joined first.
-/

namespace Rs5cmd

open LexPath

/-- A path without the slash of its root. -/
def afterRoot (p : Str) : Str := if Str.startsWith ['/'] p then p.drop 1 else p

/-- The spellings of locations: `.`, `/`, and segments that are names but for the
leading ones, which may be `..` in a path that does not start at the root. -/
structure IsClean (q : Str) : Prop where
  nonempty : q ≠ []
  segs : q = dot ∨ q = ['/'] ∨ ∃ ups names,
    Str.split '/' (afterRoot q) = List.replicate ups dotdot ++ names ∧
      (∀ s ∈ names, IsName s) ∧ (Str.startsWith ['/'] q = true → ups = 0)

theorem afterRoot_slash (p : Str) : afterRoot ('/' :: p) = p := by
  simp [afterRoot, Str.startsWith]

theorem isClean_render (l : Loc Name) : IsClean (render l) := by
  by_cases hout : outOf l = []
  · cases hr : l.rooted with
    | true => exact ⟨by simp [render, hr], Or.inr (Or.inl (by simp [render, hr, hout, Str.join]))⟩
    | false => exact ⟨by simp [render, hr, hout, dot], Or.inl (by simp [render, hr, hout])⟩
  · have hjoin : Str.join '/' (outOf l) ≠ [] := fun h => hout (join_outOf_eq_nil.mp h)
    have hafter : afterRoot (render l) = Str.join '/' (outOf l) := by
      cases hr : l.rooted with
      | true => rw [render, if_pos hr, afterRoot_slash]
      | false =>
        rw [afterRoot, startsWith_render, hr, if_neg Bool.false_ne_true, render, hr,
          if_neg Bool.false_ne_true, if_neg hout]
    refine ⟨?_, Or.inr (Or.inr ⟨l.ups, l.names.map Subtype.val, ?_, ?_, ?_⟩)⟩
    · intro h
      rw [h] at hafter
      exact hjoin hafter.symm
    · rw [hafter, split_join_outOf hout]
      rfl
    · intro s hs
      obtain ⟨n, -, rfl⟩ := List.mem_map.mp hs
      exact n.property
    · rw [startsWith_render]
      exact l.rootUps

/-- A clean path is the spelling of a location. -/
theorem IsClean.exists_render {q : Str} (h : IsClean q) : ∃ l, q = render l := by
  rcases h.segs with rfl | rfl | ⟨ups, names, hsplit, hnames, hups⟩
  · exact ⟨Loc.start false, by decide⟩
  · exact ⟨Loc.start true, by decide⟩
  · obtain ⟨ns, rfl⟩ : ∃ ns : List Name, names = ns.map Subtype.val :=
      ⟨names.attachWith IsName hnames, (List.attachWith_map_subtype_val hnames).symm⟩
    refine ⟨⟨Str.startsWith ['/'] q, ups, ns, hups⟩, ?_⟩
    have hout : outOf ⟨Str.startsWith ['/'] q, ups, ns, hups⟩ = Str.split '/' (afterRoot q) :=
      hsplit.symm
    have hne : Str.split '/' (afterRoot q) ≠ [] := List.splitOn_ne_nil '/' _
    have hjoin : Str.join '/' (Str.split '/' (afterRoot q)) = afterRoot q :=
      List.intercalate_splitOn '/'
    rw [render, hout, hjoin, if_neg hne, afterRoot]
    show q = if Str.startsWith ['/'] q = true then _ else _
    split
    · rename_i hr
      obtain ⟨rest, rfl⟩ := (startsWith_slash_iff q).mp hr
      rfl
    · rfl

/-- **What is clean stays as it is**, and nothing else does. -/
theorem cleanPath_eq_self_iff {q : Str} : cleanPath q = q ↔ IsClean q := by
  constructor
  · intro h
    rw [← h, cleanPath_eq_render]
    exact isClean_render _
  · intro h
    obtain ⟨l, rfl⟩ := h.exists_render
    rw [cleanPath_eq_render, locOf_render]

/-- Following a cleaned relative path is following the path. -/
theorem walk_segsOf_cleanPath (l : Loc Name) {p : Str} (hp : Str.startsWith ['/'] p = false) :
    l.walk (segsOf (cleanPath p)) = l.walk (segsOf p) := by
  rw [cleanPath_eq_render, segsOf_render, filterMap_toSeg_outOf, locOf, hp]
  exact walk_shortest l (segsOf p)

theorem pathJoin_ne_nil (a b : Str) : pathJoin a b ≠ [] := by
  rw [pathJoin, cleanPath_eq_render]
  exact (isClean_render _).nonempty

theorem startsWith_slash_append {b : Str} (hb : b ≠ []) (c : Str) :
    Str.startsWith ['/'] (b ++ c) = Str.startsWith ['/'] b := by
  obtain ⟨d, ds, rfl⟩ := List.exists_cons_of_ne_nil hb
  simp [Str.startsWith, List.cons_prefix_cons]

/-- The moves of a join below a relative path are those of both. -/
theorem walk_segsOf_pathJoin (l : Loc Name) {b : Str} (hb : b ≠ [])
    (hrel : Str.startsWith ['/'] b = false) (c : Str) :
    l.walk (segsOf (pathJoin b c)) = (l.walk (segsOf b)).walk (segsOf c) := by
  have hjoin : pathJoin b c = cleanPath (b ++ '/' :: c) := by
    rw [pathJoin, cleanPath_eq_iff, if_neg hb]
    split
    · rename_i hc
      rw [hc, locOf_join_slash hb]
    · have hroot : locOf (Str.trimEndMatches '/' b ++ '/' :: c) = (locOf b).walk (segsOf c) :=
        locOf_append_slash hb c
      rw [hroot, locOf, locOf, startsWith_slash_append hb, segsOf_append_slash, Loc.walk_append]
  rw [hjoin, walk_segsOf_cleanPath l (by rw [startsWith_slash_append hb, hrel]),
    segsOf_append_slash, Loc.walk_append]

/-- **Clean paths are the normal forms of paths.** Cleaning twice is cleaning once;
what comes out is clean, starts at the root if the path did, and leads where the path
leads. A join of three paths can be made from either end, where the middle one is
relative and not empty; it may have `..` in it, and so may the last one. -/
theorem cleanPath_normal_form :
    (∀ p, cleanPath (cleanPath p) = cleanPath p ∧ IsClean (cleanPath p) ∧
      Str.startsWith ['/'] (cleanPath p) = Str.startsWith ['/'] p ∧
        locOf (cleanPath p) = locOf p) ∧
      ∀ a b c, b ≠ [] → Str.startsWith ['/'] b = false →
        pathJoin a (pathJoin b c) = pathJoin (pathJoin a b) c := by
  refine ⟨fun p => ⟨cleanPath_cleanPath p, ?_, ?_, locOf_cleanPath p⟩, fun a b c hb hrel => ?_⟩
  · rw [cleanPath_eq_render]
    exact isClean_render _
  · rw [cleanPath_eq_render, startsWith_render, locOf_rooted]
  · have hloc : locOf (pathJoin a (pathJoin b c)) = locOf (pathJoin (pathJoin a b) c) := by
      rw [locOf_pathJoin, locOf_pathJoin (pathJoin a b), if_neg (pathJoin_ne_nil a b),
        locOf_pathJoin a b]
      by_cases ha : a = []
      · rw [if_pos ha, if_pos ha, locOf_pathJoin, if_neg hb]
      · rw [if_neg ha, if_neg ha]
        exact walk_segsOf_pathJoin (locOf a) hb hrel c
    rw [← cleanPath_pathJoin a, ← cleanPath_pathJoin (pathJoin a b), cleanPath_eq_iff]
    exact hloc

theorem pathJoin_three :
    pathJoin "/d".toList (pathJoin "./e//f".toList "../g".toList) =
      pathJoin (pathJoin "/d".toList "./e//f".toList) "../g".toList :=
  cleanPath_normal_form.2 "/d".toList "./e//f".toList "../g".toList (by decide) (by decide)

example : pathJoin (pathJoin "/d".toList "./e//f".toList) "../g".toList = "/d/e/g".toList := by
  decide

end Rs5cmd
